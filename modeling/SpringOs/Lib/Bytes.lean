import Mathlib.Algebra.Group.Nat.Defs
import Mathlib.Logic.Function.Basic

/-!
Memory as pages of words, read and written by the byte. A page has 4096 bytes in 512
words of eight bytes each, least significant byte first.

* `byteAt_setByte`, `byteAt_copy`: a byte reads back what was last written to it;
* `copy_page`: a write leaves the pages it does not meet alone;
* `ofBytes_byteOf`, `byteOf_ofBytes`: numbers and their bytes;
* `put_append`: two writes, one after the other, are one.
-/

namespace SpringOs.Lib.Bytes
open Function (update update_self update_of_ne update_eq_self)

abbrev Byte := BitVec 8

/-! ## Bytes of a word -/

def getByte (w : BitVec 64) (k : Nat) : Byte := w.extractLsb' (8 * k) 8

def putByte (w : BitVec 64) (k : Nat) (v : Byte) : BitVec 64 :=
  w &&& ~~~(255#64 <<< (8 * k)) ||| v.setWidth 64 <<< (8 * k)

theorem getLsbD_mask (i : Nat) : (255#64).getLsbD i = decide (i < 8) := by
  have h : (255#64).getLsbD i = (decide (i < 64) && (2 ^ 8 - 1).testBit i) :=
    BitVec.getLsbD_ofNat 64 255 i
  rw [h, Nat.testBit_two_pow_sub_one, ← Bool.decide_and, decide_eq_decide]
  omega

theorem getByte_putByte {k : Nat} (hk : k < 8) (w : BitVec 64) (v : Byte) (j : Nat) :
    getByte (putByte w k v) j = if j = k then v else getByte w j := by
  apply BitVec.eq_of_getLsbD_eq
  intro i hi
  simp only [getByte, putByte, BitVec.getLsbD_extractLsb', BitVec.getLsbD_or, BitVec.getLsbD_and,
    BitVec.getLsbD_not, BitVec.getLsbD_shiftLeft, getLsbD_mask, BitVec.getLsbD_setWidth]
  split
  · rename_i hjk
    subst hjk
    have hbit : 8 * j + i - 8 * j = i := by omega
    simp [hbit, hi, show 8 * j + i < 64 by omega, show i < 64 by omega,
      show ¬ 8 * j + i < 8 * j by omega]
  · rename_i hjk
    rw [BitVec.getLsbD_extractLsb']
    by_cases hlow : 8 * j + i < 8 * k
    · simp [hi, hlow, show 8 * j + i < 64 by omega]
    · have hhigh : ¬ 8 * j + i - 8 * k < 8 := by omega
      rw [BitVec.getLsbD_of_ge v _ (by omega)]
      by_cases hword : 8 * j + i < 64
      · simp [hi, hhigh, hword]
      · simp [hi, hword, BitVec.getLsbD_of_ge w (8 * j + i) (by omega)]

theorem putByte_getByte (w : BitVec 64) (k : Nat) : putByte w k (getByte w k) = w := by
  apply BitVec.eq_of_getLsbD_eq
  intro i hi
  simp only [getByte, putByte, BitVec.getLsbD_extractLsb', BitVec.getLsbD_or, BitVec.getLsbD_and,
    BitVec.getLsbD_not, BitVec.getLsbD_shiftLeft, getLsbD_mask, BitVec.getLsbD_setWidth]
  by_cases hlow : i < 8 * k
  · simp [hi, hlow]
  · have hbit : 8 * k + (i - 8 * k) = i := by omega
    by_cases hin : i - 8 * k < 8
    · simp [hi, hlow, hin, hbit, show i - 8 * k < 64 by omega]
    · simp [hi, hin]

/-! ## Bytes of a memory -/

def pageOf (a : Nat) : Nat := a / 4096 * 4096

def byteAt (mem : Nat → Nat → BitVec 64) (a : Nat) : Byte :=
  getByte (mem (pageOf a) (a % 4096 / 8)) (a % 8)

def setByte (mem : Nat → Nat → BitVec 64) (a : Nat) (v : Byte) : Nat → Nat → BitVec 64 :=
  update mem (pageOf a) (update (mem (pageOf a)) (a % 4096 / 8)
    (putByte (mem (pageOf a) (a % 4096 / 8)) (a % 8) v))

variable {mem : Nat → Nat → BitVec 64} {p n : Nat}

theorem setByte_page {a : Nat} (h : p ≠ pageOf a) (v : Byte) : setByte mem a v p = mem p :=
  update_of_ne h ..

theorem byteAt_setByte (mem : Nat → Nat → BitVec 64) (a : Nat) (v : Byte) (x : Nat) :
    byteAt (setByte mem a v) x = if x = a then v else byteAt mem x := by
  unfold byteAt
  by_cases hpage : pageOf x = pageOf a
  · by_cases hword : x % 4096 / 8 = a % 4096 / 8
    · have hread : setByte mem a v (pageOf x) (x % 4096 / 8) =
          putByte (mem (pageOf x) (x % 4096 / 8)) (a % 8) v := by
        rw [setByte, hpage, hword, update_self, update_self]
      have hsame : x % 8 = a % 8 ↔ x = a := by
        unfold pageOf at hpage
        omega
      rw [hread, getByte_putByte (Nat.mod_lt a (by decide))]
      simp only [hsame]
    · have hread : setByte mem a v (pageOf x) (x % 4096 / 8) = mem (pageOf x) (x % 4096 / 8) := by
        rw [setByte, hpage, update_self, update_of_ne hword]
      rw [hread, if_neg (fun h : x = a => hword (h ▸ rfl))]
  · rw [setByte_page hpage, if_neg (fun h : x = a => hpage (h ▸ rfl))]

theorem setByte_byteAt (mem : Nat → Nat → BitVec 64) (a : Nat) :
    setByte mem a (byteAt mem a) = mem := by
  rw [setByte, byteAt, putByte_getByte, update_eq_self,
    update_eq_self]

/-- `memcpy` of `n` bytes to `dst`. -/
def copy (mem : Nat → Nat → BitVec 64) (dst : Nat) (src : Nat → Byte) : Nat → Nat → Nat → BitVec 64
  | 0 => mem
  | n + 1 => setByte (copy mem dst src n) (dst + n) (src n)

theorem byteAt_copy (mem : Nat → Nat → BitVec 64) (dst : Nat) (src : Nat → Byte) (n x : Nat) :
    byteAt (copy mem dst src n) x =
      if dst ≤ x ∧ x < dst + n then src (x - dst) else byteAt mem x := by
  induction n with
  | zero => rw [copy, if_neg (by omega)]
  | succ n ih =>
    rw [copy, byteAt_setByte, ih]
    by_cases hlast : x = dst + n
    · rw [if_pos hlast, if_pos (by omega), hlast, Nat.add_sub_cancel_left]
    · rw [if_neg hlast]
      by_cases hin : dst ≤ x ∧ x < dst + n
      · rw [if_pos hin, if_pos (by omega)]
      · rw [if_neg hin, if_neg (by omega)]

theorem copy_page {dst : Nat} (h : p + 4096 ≤ dst ∨ dst + n ≤ p) (src : Nat → Byte) :
    copy mem dst src n p = mem p := by
  induction n with
  | zero => rfl
  | succ n ih =>
    rw [copy, setByte_page, ih (by omega)]
    unfold pageOf
    omega

/-- Pages that hold no byte of the range keep their contents. -/
theorem copy_of_pageOf_ne {dst : Nat} (h : ∀ i < n, p ≠ pageOf (dst + i)) (src : Nat → Byte) :
    copy mem dst src n p = mem p := by
  induction n with
  | zero => rfl
  | succ n ih =>
    rw [copy, setByte_page (h n (Nat.lt_succ_self n)), ih fun i hi => h i (by omega)]

/-! ## Numbers in bytes -/

/-- The number in `n` bytes, least significant first. -/
def ofBytes (src : Nat → Byte) : Nat → Nat
  | 0 => 0
  | n + 1 => ofBytes src n + 256 ^ n * (src n).toNat

/-- Byte `k` of a number. -/
def byteOf (v k : Nat) : Byte := .ofNat 8 (v / 256 ^ k)

theorem ofBytes_congr {src src' : Nat → Byte} (h : ∀ i < n, src i = src' i) :
    ofBytes src n = ofBytes src' n := by
  induction n with
  | zero => rfl
  | succ n ih => rw [ofBytes, ofBytes, ih fun i hi => h i (by omega), h n (by omega)]

theorem ofBytes_lt (src : Nat → Byte) (n : Nat) : ofBytes src n < 256 ^ n := by
  induction n with
  | zero => exact Nat.one_pos
  | succ n ih =>
    have hmul := Nat.mul_le_mul_left (256 ^ n) (show (src n).toNat ≤ 255 by omega)
    rw [ofBytes, Nat.pow_succ]
    omega

theorem ofBytes_byteOf (v n : Nat) : ofBytes (byteOf v) n = v % 256 ^ n := by
  induction n with
  | zero => rw [ofBytes, Nat.pow_zero, Nat.mod_one]
  | succ n ih =>
    have h := Nat.mod_pow_succ (x := v) (b := 256) (k := n)
    rw [h, ofBytes, ih, byteOf, BitVec.toNat_ofNat]

theorem byteOf_ofBytes (src : Nat → Byte) {k : Nat} (h : k < n) :
    byteOf (ofBytes src n) k = src k := by
  induction n with
  | zero => cases h
  | succ n ih =>
    rw [ofBytes, byteOf]
    rcases Nat.lt_succ_iff_lt_or_eq.1 h with hlt | rfl
    · -- A byte above place `k` is a multiple of 256 there.
      have hpow : 256 ^ n = 256 ^ k * (256 * 256 ^ (n - k - 1)) := by
        rw [← Nat.pow_succ', ← Nat.pow_add]
        congr 1
        omega
      rw [hpow, Nat.mul_assoc, Nat.add_mul_div_left _ _ (Nat.pow_pos (by decide)), Nat.mul_assoc]
      apply BitVec.eq_of_toNat_eq
      rw [← ih hlt, byteOf, BitVec.toNat_ofNat, BitVec.toNat_ofNat]
      exact Nat.add_mul_mod_self_left ..
    · rw [Nat.add_mul_div_left _ _ (Nat.pow_pos (by decide)), Nat.div_eq_of_lt (ofBytes_lt src k),
        Nat.zero_add, BitVec.ofNat_toNat, BitVec.setWidth_eq]

/-- The first byte is the remainder, and the others are the quotient. -/
theorem ofBytes_cons (src : Nat → Byte) (n : Nat) :
    ofBytes src (n + 1) = (src 0).toNat + 256 * ofBytes (fun i => src (i + 1)) n := by
  induction n with
  | zero => simp [ofBytes]
  | succ n ih => rw [ofBytes, ih, ofBytes, Nat.pow_succ', Nat.mul_add, Nat.mul_assoc, Nat.add_assoc]

/-! ## Memory without pages -/

section
variable {α : Type} (mem : Nat → α)

/-- `n` entries of `src` at `a`. -/
def put (a : Nat) (src : Nat → α) (n i : Nat) : α :=
  if a ≤ i ∧ i < a + n then src (i - a) else mem i

theorem put_inside (a : Nat) (src : Nat → α) {n i : Nat} (h : i < n) :
    put mem a src n (a + i) = src i := by
  rw [put, if_pos (by omega), Nat.add_sub_cancel_left]

theorem put_outside {a : Nat} (src : Nat → α) {n i : Nat} (h : i < a ∨ a + n ≤ i) :
    put mem a src n i = mem i :=
  if_neg (by omega)

theorem put_zero (a : Nat) (src : Nat → α) : put mem a src 0 = mem :=
  funext fun _ => put_outside mem src (by omega)

theorem put_cons (a : Nat) (src : Nat → α) (n : Nat) :
    put (update mem a (src 0)) (a + 1) (fun i => src (i + 1)) n =
      put mem a src (n + 1) := by
  funext i
  rcases Nat.lt_trichotomy i a with hlt | rfl | hgt
  · rw [put_outside _ _ (by omega), put_outside _ _ (by omega), update_of_ne (by omega)]
  · rw [put_outside _ _ (by omega), update_self]
    exact (put_inside mem i src (Nat.zero_lt_succ n)).symm
  · have hidx : i - (a + 1) + 1 = i - a := by omega
    rw [put, put, update_of_ne (by omega), hidx]
    exact if_congr (by omega) rfl rfl

theorem put_snoc (a : Nat) (src : Nat → α) (n : Nat) :
    put (update mem (a + n) (src n)) a src n = put mem a src (n + 1) := by
  funext i
  by_cases hi : i = a + n
  · subst hi
    rw [put_outside _ _ (by omega), update_self, put_inside mem a src (Nat.lt_succ_self n)]
  · rw [put, put, update_of_ne hi]
    exact if_congr (by omega) rfl rfl

theorem put_congr (a : Nat) {src src' : Nat → α} {n : Nat} (h : ∀ i < n, src i = src' i) :
    put mem a src n = put mem a src' n := by
  funext i
  by_cases hi : a ≤ i ∧ i < a + n
  · rw [put, put, if_pos hi, if_pos hi, h (i - a) (by omega)]
  · rw [put, put, if_neg hi, if_neg hi]

theorem put_one (a : Nat) (src : Nat → α) : put mem a src 1 = update mem a (src 0) := by
  rw [← put_cons, put_zero]

/-- Two writes, one after the other. -/
theorem put_append (a : Nat) (src : Nat → α) (n k : Nat) :
    put (put mem a src n) (a + n) (fun i => src (n + i)) k = put mem a src (n + k) := by
  funext i
  by_cases hfirst : i < a + n
  · rw [put_outside _ _ (.inl hfirst), put, put]
    exact if_congr (by omega) rfl rfl
  · by_cases hsecond : i < a + n + k
    · have hidx : n + (i - (a + n)) = i - a := by omega
      rw [put, if_pos (by omega), put, if_pos (by omega), hidx]
    · rw [put_outside _ _ (by omega), put_outside _ _ (by omega), put_outside _ _ (by omega)]

end

end SpringOs.Lib.Bytes
