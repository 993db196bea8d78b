import SpringOs.Print

/-!
`strtol` and `strtoul` (`strtol.c`) read back what the conversions of `print.c` print.

A string is its characters in front of the NUL, and a pointer into it what is left of them.

* `strtoulLoop_eq`: up to `ULONG_MAX` the tests against `cutoff` and `cutlim` never fire;
* `strtolLoop_eq`: the plain loop wraps around;
* **`strtoul_number`**, **`strtol_number`**: a padded number is read to its end;
* **`print_parse_inverse`**: so for every 64-bit value and every width up to 31.
-/

namespace SpringOs.Strtol
open Kernel Lib.Word Lib.Bytes Lib.Numeral Print

/-! ## The code -/

/-- `*s` -/
def charAt (s : List Byte) : Byte := s.headD 0

def isspace (c : Byte) : Bool := c = 32 ∨ 9 ≤ c.toNat ∧ c.toNat < 14

def digitOf (c : Byte) : Option Nat :=
  if 48 ≤ c.toNat ∧ c.toNat ≤ 57 then some (c.toNat - 48)
  else if 97 ≤ c.toNat ∧ c.toNat ≤ 122 then some (c.toNat - 97 + 10)
  else if 65 ≤ c.toNat ∧ c.toNat ≤ 90 then some (c.toNat - 65 + 10)
  else none

def sign (s : List Byte) : Bool × List Byte :=
  if charAt s = 45 then (true, s.tail) else if charAt s = 43 then (false, s.tail) else (false, s)

def strtolLoop (base : Int) : List Byte → BitVec 64 → BitVec 64 × List Byte
  | [], val => (val, [])
  | c :: s, val =>
    match digitOf c with
    | none => (val, c :: s)
    | some dig =>
      if base ≤ dig then (val, c :: s)
      else strtolLoop base s (val * .ofInt 64 base + .ofNat 64 dig)

/-- The hex or octal prefix of `strtol`. -/
def baseOf (s : List Byte) (base : Int) : List Byte × Int :=
  if (base = 0 ∨ base = 16) ∧ charAt s = 48 ∧ charAt s.tail = 120 then (s.drop 2, 16)
  else if base = 0 ∧ charAt s = 48 then (s.tail, 8)
  else if base = 0 then (s, 10)
  else (s, base)

/-- The result, and `*endptr`. -/
def strtol (s : List Byte) (base : Int) : BitVec 64 × List Byte :=
  let (neg, s) := sign (s.dropWhile fun c => c = 32 ∨ c = 9)
  let (s, base) := baseOf s base
  let (val, s) := strtolLoop base s 0
  (if neg then -val else val, s)

def ulongMax : Nat := 2 ^ 64 - 1

/-- `any` is 0 before the first digit, and -1 after an overflow. -/
def strtoulLoop (base : Nat) : List Byte → Nat → Int → Nat × Int × List Byte
  | [], acc, any => (acc, any, [])
  | c :: s, acc, any =>
    match digitOf c with
    | none => (acc, any, c :: s)
    | some d =>
      if base ≤ d then (acc, any, c :: s)
      else if any < 0 ∨ ulongMax / base < acc ∨ acc = ulongMax / base ∧ ulongMax % base < d then
        strtoulLoop base s acc (-1)
      else strtoulLoop base s (u64 (acc * base + d : Nat)) 1

/-- `0x` counts only in front of a digit. -/
def hexMarked (s : List Byte) : Bool :=
  charAt s = 48 ∧ (charAt s.tail = 120 ∨ charAt s.tail = 88) ∧
    (48 ≤ (charAt (s.drop 2)).toNat ∧ (charAt (s.drop 2)).toNat ≤ 57 ∨
      65 ≤ (charAt (s.drop 2)).toNat ∧ (charAt (s.drop 2)).toNat ≤ 70 ∨
      97 ≤ (charAt (s.drop 2)).toNat ∧ (charAt (s.drop 2)).toNat ≤ 102)

/-- The result, and `*endptr`. -/
def strtoul (nptr : List Byte) (base : Int) : Nat × List Byte :=
  let (neg, s) := sign (nptr.dropWhile isspace)
  let (s, base) := if (base = 0 ∨ base = 16) ∧ hexMarked s then (s.drop 2, 16) else (s, base)
  let base := if base = 0 then (if charAt s = 48 then 8 else 10) else base
  if base < 2 ∨ 36 < base then (0, nptr)
  else
    let (acc, any, s) := strtoulLoop base.toNat s 0 0
    (if any < 0 then ulongMax else if any ≠ 0 ∧ neg then u64 (-acc) else acc,
      if any ≠ 0 then s else nptr)

/-! ## Digits -/

variable {d base : Nat} {ds : List Nat}

theorem digitOf_digitChar (upper : Bool) (hd : d < 16) : digitOf (digitChar upper d) = some d := by
  revert upper
  have hall : ∀ d < 16, ∀ upper, digitOf (digitChar upper d) = some d := by decide
  exact hall d hd

theorem digitChar_plain (upper : Bool) (hd : d < 16) :
    isspace (digitChar upper d) = false ∧ digitChar upper d ≠ 45 ∧ digitChar upper d ≠ 43 ∧
      digitChar upper d ≠ 120 ∧ digitChar upper d ≠ 88 := by
  revert upper
  have hall : ∀ d < 16, ∀ upper, isspace (digitChar upper d) = false ∧
      digitChar upper d ≠ 45 ∧ digitChar upper d ≠ 43 ∧ digitChar upper d ≠ 120 ∧
      digitChar upper d ≠ 88 := by decide
  exact hall d hd

theorem strtolLoop_eq (hb : base ≤ 16) (upper : Bool) (hds : ∀ d ∈ ds, d < base) (acc : Nat) :
    strtolLoop base (ds.map (digitChar upper)) (.ofNat 64 acc) =
      (.ofNat 64 (ds.foldl (horner base) acc), []) := by
  induction ds generalizing acc with
  | nil => rfl
  | cons d ds ih =>
    have hd : d < base := hds d List.mem_cons_self
    have hacc : BitVec.ofNat 64 acc * BitVec.ofInt 64 base + BitVec.ofNat 64 d =
        BitVec.ofNat 64 (horner base acc d) := by
      rw [horner, BitVec.ofNat_add, BitVec.ofNat_mul, BitVec.ofInt_natCast]
    rw [List.map_cons, strtolLoop, digitOf_digitChar upper (by omega)]
    dsimp only
    rw [if_neg (by omega), hacc, List.foldl_cons]
    exact ih (fun e he => hds e (List.mem_cons_of_mem d he)) _

/-- One more digit overflows exactly if the tests say so. -/
theorem cutoff_iff {acc : Nat} (hb : 1 ≤ base) (hd : d < base) :
    ulongMax / base < acc ∨ acc = ulongMax / base ∧ ulongMax % base < d ↔
      ulongMax < acc * base + d := by
  have hdiv := Nat.div_add_mod ulongMax base
  rw [Nat.mul_comm] at hdiv
  rcases Nat.lt_trichotomy acc (ulongMax / base) with hlt | heq | hgt
  · have hle : (acc + 1) * base ≤ ulongMax / base * base := Nat.mul_le_mul_right base hlt
    rw [Nat.succ_mul] at hle
    constructor
    · omega
    · omega
  · subst heq
    constructor
    · omega
    · omega
  · have hlt := (Nat.div_lt_iff_lt_mul hb).1 hgt
    constructor
    · omega
    · exact fun _ => .inl hgt

theorem strtoulLoop_eq (hpos : 1 ≤ base) (hb : base ≤ 16) (upper : Bool) (hds : ∀ d ∈ ds, d < base)
    {acc : Nat} {any : Int} (hany : 0 ≤ any) (hmax : ds.foldl (horner base) acc ≤ ulongMax) :
    strtoulLoop base (ds.map (digitChar upper)) acc any =
      (ds.foldl (horner base) acc, if ds = [] then any else 1, []) := by
  induction ds generalizing acc any with
  | nil => rfl
  | cons d ds ih =>
    have hd : d < base := hds d List.mem_cons_self
    -- the value so far is a prefix of the whole numeral
    have hle : horner base acc d ≤ ulongMax := (le_foldl_horner hpos _ ds).trans hmax
    have hstep : u64 (acc * base + d : Nat) = horner base acc d := by
      rw [u64_natCast]
      exact Nat.mod_eq_of_lt (Nat.lt_succ_of_le hle)
    have hfits : ¬ (any < 0 ∨ ulongMax / base < acc ∨
        acc = ulongMax / base ∧ ulongMax % base < d) := by
      rw [cutoff_iff hpos hd]
      unfold horner at hle
      omega
    rw [List.map_cons, strtoulLoop, digitOf_digitChar upper (by omega)]
    dsimp only
    rw [if_neg (by omega), if_neg hfits, hstep, List.foldl_cons,
      ih (fun e he => hds e (List.mem_cons_of_mem d he)) (by decide) hmax]
    simp

/-! ## Padded numbers -/

theorem padText_plain (n : Number) (w : Nat) :
    ∃ k, padText n.rev ⟨false, false, w⟩ =
      List.replicate k 32 ++ (n.sign ++ n.digits.map (digitChar n.upper)) := by
  have hfill : Field.fill ⟨false, false, w⟩ = 32 := rfl
  refine ⟨Field.pad ⟨false, false, w⟩ n.rev.length, ?_⟩
  rw [padText, if_neg Bool.false_ne_true, hfill, List.reverse_append, List.reverse_replicate,
    n.reverse_rev]

theorem dropWhile_blanks {p : Byte → Bool} (hp : p 32 = true) (k : Nat) {s : List Byte}
    (hs : ∀ c ∈ s.head?, p c = false) : (List.replicate k 32 ++ s).dropWhile p = s := by
  induction k with
  | zero =>
    cases s with
    | nil => rfl
    | cons c s =>
      rw [List.replicate_zero, List.nil_append, List.dropWhile_cons_of_neg]
      rw [hs c rfl]
      decide
  | succ k ih => rw [List.replicate_succ, List.cons_append, List.dropWhile_cons_of_pos hp, ih]

theorem sign_digits (upper : Bool) (hd : d < 16) (s : List Byte) :
    sign (digitChar upper d :: s) = (false, digitChar upper d :: s) := by
  obtain ⟨-, hminus, hplus, -⟩ := digitChar_plain upper hd
  rw [sign, charAt, List.headD_cons, if_neg hminus, if_neg hplus]

/-- Behind the first digit stands another one or the NUL, but no `x`. -/
theorem hexMarked_digits (upper : Bool) (d : Nat) (hds : ∀ e ∈ ds, e < 16) :
    hexMarked (digitChar upper d :: ds.map (digitChar upper)) = false := by
  rw [hexMarked, decide_eq_false_iff_not]
  rintro ⟨-, hx, -⟩
  rw [List.tail_cons] at hx
  cases ds with
  | nil =>
    rw [List.map_nil] at hx
    exact absurd hx (by decide)
  | cons e ds =>
    obtain ⟨-, -, -, hlow, hhigh⟩ := digitChar_plain upper (hds e List.mem_cons_self)
    exact hx.elim hlow hhigh

/-- **`strtoul`** reads a padded number without a sign. -/
theorem strtoul_number {n : Number} (hn : n.neg = false) (w : Nat) :
    strtoul (padText n.rev ⟨false, false, w⟩) n.base = (n.uval, []) := by
  obtain ⟨k, htext⟩ := padText_plain n w
  obtain ⟨d, ds, hms⟩ := n.digits_cons
  have hb := n.base_ok
  have hall := n.digits_lt
  have hd : d < 16 := by
    have := hall d (hms ▸ List.mem_cons_self)
    omega
  have hds : ∀ e ∈ ds, e < 16 := by
    intro e he
    have := hall e (hms ▸ List.mem_cons_of_mem d he)
    omega
  have hplus : n.sign = [] := by rw [Number.sign, hn]; rfl
  rw [hplus, List.nil_append] at htext
  have hskip : (padText n.rev ⟨false, false, w⟩).dropWhile isspace =
      n.digits.map (digitChar n.upper) := by
    rw [htext, dropWhile_blanks (by decide)]
    intro c hc
    rw [hms, List.map_cons, List.head?_cons, Option.mem_some_iff] at hc
    exact hc ▸ (digitChar_plain n.upper hd).1
  have hsign : sign (n.digits.map (digitChar n.upper)) =
      (false, n.digits.map (digitChar n.upper)) := by
    rw [hms]
    exact sign_digits n.upper hd _
  have hmarked : hexMarked (n.digits.map (digitChar n.upper)) = false := by
    rw [hms]
    exact hexMarked_digits n.upper d hds
  have hloop := strtoulLoop_eq (by omega) (by omega) n.upper hall (le_refl 0)
    ((n.digits_value).trans_le (Nat.le_pred_of_lt n.uval_lt))
  rw [n.digits_value, if_neg (by rw [hms]; exact List.cons_ne_nil d ds)] at hloop
  simp only [strtoul, hskip, hsign, hmarked, Bool.false_eq_true, and_false, if_false]
  rw [if_neg (show ¬ (n.base : Int) = 0 by omega),
    if_neg (show ¬ ((n.base : Int) < 2 ∨ 36 < (n.base : Int)) by omega), Int.toNat_natCast, hloop]
  rfl

theorem baseOf_ten (s : List Byte) : baseOf s 10 = (s, 10) := by
  have hbase : ¬ ((10 : Int) = 0 ∨ (10 : Int) = 16) := by decide
  have hzero : ¬ (10 : Int) = 0 := by decide
  rw [baseOf, if_neg (fun h => hbase h.1), if_neg (fun h => hzero h.1), if_neg hzero]

/-- **`strtol`** in base 10 reads a padded number with its sign. -/
theorem strtol_number {n : Number} (hn : n.base = 10) (w : Nat) :
    strtol (padText n.rev ⟨false, false, w⟩) 10 =
      (if n.neg then -.ofNat 64 n.uval else .ofNat 64 n.uval, []) := by
  obtain ⟨k, htext⟩ := padText_plain n w
  obtain ⟨d, ds, hms⟩ := n.digits_cons
  have hall := n.digits_lt
  have hd : d < 16 := by
    have := hall d (hms ▸ List.mem_cons_self)
    omega
  have hblank : ∀ c : Byte, isspace c = false → decide (c = 32 ∨ c = 9) = false := by decide
  have hskip : (padText n.rev ⟨false, false, w⟩).dropWhile (fun c => c = 32 ∨ c = 9) =
      n.sign ++ n.digits.map (digitChar n.upper) := by
    rw [htext, dropWhile_blanks (by decide)]
    intro c hc
    rw [Number.sign] at hc
    split at hc
    · cases hc
      rfl
    · rw [hms, List.nil_append, List.map_cons, List.head?_cons, Option.mem_some_iff] at hc
      exact hblank c (hc ▸ (digitChar_plain n.upper hd).1)
  have hsign : sign (n.sign ++ n.digits.map (digitChar n.upper)) =
      (n.neg, n.digits.map (digitChar n.upper)) := by
    rw [Number.sign]
    cases n.neg with
    | true => rfl
    | false =>
      rw [hms]
      exact sign_digits n.upper hd _
  have hloop := strtolLoop_eq (by omega) n.upper hall 0
  rw [n.digits_value, hn] at hloop
  simp only [strtol, hskip, hsign, baseOf_ten]
  exact congrArg (fun r => (if n.neg then -r.1 else r.1, r.2)) hloop

/-! ## Printing and reading -/

theorem fmtRev_whole (n : Number) {w size : Nat} (hw : w ≤ 31) (hsize : 32 < size) :
    fmtRev ⟨size, []⟩ n.rev ⟨false, false, w⟩ =
      .ok ⟨size, padText n.rev ⟨false, false, w⟩⟩ := by
  have hlen := n.length_rev_le
  have hpad : n.rev.length + Field.pad ⟨false, false, w⟩ n.rev.length ≤ 31 := by
    rw [Field.pad]
    dsimp only
    split <;> omega
  rw [fmtRev_eq, if_pos (by rw [scratch]; omega), Sink.add, List.nil_append,
    List.take_of_length_le]
  rw [length_padText, Sink.room, List.length_nil]
  dsimp only
  omega

theorem signOf_value (v : BitVec 64) :
    (if (signOf v true).1 then -BitVec.ofNat 64 (signOf v true).2
      else BitVec.ofNat 64 (signOf v true).2) = v := by
  rw [signOf_long]
  by_cases hneg : v.toInt < 0
  · rw [if_pos hneg, if_pos rfl, BitVec.ofNat_toNat, BitVec.setWidth_eq, BitVec.neg_neg]
  · rw [if_neg hneg, if_neg Bool.false_ne_true, BitVec.ofNat_toNat, BitVec.setWidth_eq]

/-- What `fmt_lx`, `fmt_u` and `fmt_d` print is read back to its end by `strtoul` in base 16 and
10 and by `strtol` in base 10. -/
theorem print_parse_inverse (v : BitVec 64) {w size : Nat} (hw : w ≤ 31) (hsize : 32 < size) :
    (∀ isUpper, ∃ text, fmtLx ⟨size, []⟩ v ⟨false, false, w⟩ isUpper = .ok ⟨size, text⟩ ∧
      strtoul text 16 = (v.toNat, [])) ∧
    (∃ text, fmtU ⟨size, []⟩ v ⟨false, false, w⟩ = .ok ⟨size, text⟩ ∧
      strtoul text 10 = (v.toNat, [])) ∧
    (∃ text, fmtD ⟨size, []⟩ v ⟨false, false, w⟩ true = .ok ⟨size, text⟩ ∧
      strtol text 10 = (v, [])) := by
  refine ⟨fun isUpper => ?_, ?_, ?_⟩
  · cases isUpper with
    | false => exact ⟨_, (fmtNum_eq _ .lx _ v).trans (fmtRev_whole _ hw hsize),
        strtoul_number (n := numberOf .lx v) rfl w⟩
    | true => exact ⟨_, (fmtNum_eq _ .lUpperX _ v).trans (fmtRev_whole _ hw hsize),
        strtoul_number (n := numberOf .lUpperX v) rfl w⟩
  · exact ⟨_, (fmtNum_eq _ .lu _ v).trans (fmtRev_whole _ hw hsize),
      strtoul_number (n := numberOf .lu v) rfl w⟩
  · refine ⟨_, (fmtNum_eq _ .ld _ v).trans (fmtRev_whole _ hw hsize), ?_⟩
    rw [strtol_number rfl]
    exact congrArg (·, []) (signOf_value v)

/-- The most negative number, in a field of 31 characters. -/
theorem print_parse_min :
    (∀ isUpper, ∃ text, fmtLx ⟨33, []⟩ (BitVec.intMin 64) ⟨false, false, 31⟩ isUpper =
        .ok ⟨33, text⟩ ∧ strtoul text 16 = ((BitVec.intMin 64).toNat, [])) ∧
    (∃ text, fmtU ⟨33, []⟩ (BitVec.intMin 64) ⟨false, false, 31⟩ = .ok ⟨33, text⟩ ∧
      strtoul text 10 = ((BitVec.intMin 64).toNat, [])) ∧
    (∃ text, fmtD ⟨33, []⟩ (BitVec.intMin 64) ⟨false, false, 31⟩ true = .ok ⟨33, text⟩ ∧
      strtol text 10 = (BitVec.intMin 64, [])) :=
  print_parse_inverse (BitVec.intMin 64) (show 31 ≤ 31 by decide) (by decide)

end SpringOs.Strtol
