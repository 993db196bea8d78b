import Mathlib.Algebra.Order.BigOperators.Group.List
import SpringOs.PrintFormat

/-!
The text of `vsnprintf` against the one ISO C prescribes.

* `numberOf_eq`, `numberOf_gt`: which number a conversion prints. A 32-bit argument is fetched
  as a 64-bit one;
* `padText_eq_iff`: where the padding of a number goes;
* `text_eq_of_flatMap`: a text is right as a whole only if each of its parts is;
* **`vsnprintf_iso_iff`**: the text is right for every size exactly if every conversion is one
  that `Item.Good` describes.
-/

namespace SpringOs.Print
open Kernel Lib.Word Lib.Bytes Lib.Numeral

variable {w : Nat} {k : NumConv} {v : BitVec 64} {n : Number} {s : Spec} {i : Item}

/-! ## What ISO C prescribes -/

theorem natAbs_toInt_lt (hw : w ≤ 64) (v : BitVec w) : v.toInt.natAbs < 2 ^ 64 := by
  have hlt := v.isLt
  have hle : 2 ^ w ≤ 2 ^ 64 := Nat.pow_le_pow_right (by decide) hw
  rw [BitVec.toInt_eq_toNat_cond]
  split
  · omega
  · omega

theorem natAbs_lt (v : BitVec 64) : v.toInt.natAbs < 2 ^ 64 :=
  natAbs_toInt_lt (Nat.le_refl 64) v

theorem natAbs_low_lt (v : BitVec 64) : (v.setWidth 32).toInt.natAbs < 2 ^ 64 :=
  natAbs_toInt_lt (by decide) (v.setWidth 32)

theorem toNat_lt (v : BitVec 64) : v.toNat < 2 ^ 64 := v.isLt

theorem base_ten : (10 : Nat) = 10 ∨ (10 : Nat) = 16 := .inl rfl

theorem base_sixteen : (16 : Nat) = 10 ∨ (16 : Nat) = 16 := .inr rfl

theorem toNat_low_lt (v : BitVec 64) : (v.setWidth 32).toNat < 2 ^ 64 :=
  (v.setWidth 32).isLt.trans (by decide)

/-- The value of an argument, of the type its conversion has. -/
def isoNumber (k : NumConv) (v : BitVec 64) : Number :=
  match k with
  | .ld => ⟨v.toInt < 0, 10, false, v.toInt.natAbs, base_ten, natAbs_lt v⟩
  | .lx => ⟨false, 16, false, v.toNat, base_sixteen, toNat_lt v⟩
  | .lUpperX => ⟨false, 16, true, v.toNat, base_sixteen, toNat_lt v⟩
  | .lu => ⟨false, 10, false, v.toNat, base_ten, toNat_lt v⟩
  | .d => ⟨(v.setWidth 32).toInt < 0, 10, false, (v.setWidth 32).toInt.natAbs, base_ten,
      natAbs_low_lt v⟩
  | .u => ⟨false, 10, false, (v.setWidth 32).toNat, base_ten, toNat_low_lt v⟩
  | .x => ⟨false, 16, false, (v.setWidth 32).toNat, base_sixteen, toNat_low_lt v⟩
  | .upperX => ⟨false, 16, true, (v.setWidth 32).toNat, base_sixteen, toNat_low_lt v⟩

/-- Spaces on the right with `-`, else zeros behind the sign with `0`, else spaces on the left. -/
def isoField (s : Spec) (sign body : List Byte) : List Byte :=
  if .minus ∈ s.flags then
    sign ++ body ++ List.replicate (s.width - (sign ++ body).length) 32
  else if .zero ∈ s.flags then
    sign ++ List.replicate (s.width - (sign ++ body).length) 48 ++ body
  else List.replicate (s.width - (sign ++ body).length) 32 ++ (sign ++ body)

def isoNum (n : Number) (s : Spec) : List Byte :=
  isoField s n.sign (n.digits.map (digitChar n.upper))

def Item.iso : Item → List Byte
  | .lit c _ => [c]
  | .num k s v => isoNum (isoNumber k v) s
  | .char s v => isoField s [] [v.setWidth 8]
  | .str s t => isoField s [] t.chars

/-- The flag `0` is undefined with `c` and `s`. -/
def Item.Defined : Item → Prop
  | .char s _ => .zero ∉ s.flags
  | .str s _ => .zero ∉ s.flags
  | _ => True

/-- The 64 bits that are fetched have the value of the argument. -/
def Fetched (k : NumConv) (v : BitVec 64) : Prop :=
  match k with
  | .d => (v.setWidth 32).toInt < 0 ∨ v.toNat < 2 ^ 32
  | .u => v.toNat < 2 ^ 32
  | _ => True

/-- What the code gets right. Padding with zeros goes wrong with `-` and with a sign, the width
of a character is ignored, and an empty string fails an assertion. -/
def Item.Good : Item → Prop
  | .lit _ _ => True
  | .num k s v => Fetched k v ∧ (.zero ∈ s.flags → (isoNumber k v).rev.length < s.width →
      .minus ∉ s.flags ∧ (isoNumber k v).neg = false)
  | .char s _ => s.width ≤ 1
  | .str _ t => t.chars ≠ []

/-! ## Which number is printed -/

theorem neg_low (v : BitVec 64) : (-v).setWidth 32 = -(v.setWidth 32) :=
  BitVec.setWidth_neg_of_le (by decide)

/-- The unsigned negation of a negative number is its absolute value. -/
theorem toNat_neg_eq {v : BitVec w} (h : v.toInt < 0) : (-v).toNat = v.toInt.natAbs := by
  have hlt := v.isLt
  rw [BitVec.toInt_eq_toNat_cond] at h ⊢
  rw [BitVec.toNat_neg]
  split at h
  · omega
  · rename_i hhigh
    rw [if_neg hhigh, Nat.mod_eq_of_lt (by omega)]
    omega

theorem toNat_eq_natAbs {v : BitVec w} (h : ¬ v.toInt < 0) : v.toNat = v.toInt.natAbs := by
  have hlt := v.isLt
  rw [BitVec.toInt_eq_toNat_cond] at h ⊢
  split at h
  · rename_i hlow
    rw [if_pos hlow, Int.natAbs_natCast]
  · omega

theorem toNat_low (v : BitVec 64) : (v.setWidth 32).toNat = v.toNat % 2 ^ 32 :=
  BitVec.toNat_setWidth 32 v

theorem numberOf_eq (h : Fetched k v) : numberOf k v = isoNumber k v := by
  cases k with
  | ld =>
    ext1
    · simp only [numberOf, isoNumber, signOf_long]
      split <;> simp_all
    · rfl
    · rfl
    · simp only [numberOf, isoNumber, signOf_long]
      split
      · rename_i hneg
        exact toNat_neg_eq hneg
      · rename_i hpos
        exact toNat_eq_natAbs hpos
  | d =>
    ext1
    · simp only [numberOf, isoNumber, signOf_int]
      split <;> simp_all
    · rfl
    · rfl
    · simp only [numberOf, isoNumber, signOf_int]
      split
      · rename_i hneg
        rw [neg_low]
        exact toNat_neg_eq hneg
      · rename_i hpos
        have hlow := toNat_low v
        rw [Nat.mod_eq_of_lt (h.resolve_left hpos)] at hlow
        exact hlow.symm.trans (toNat_eq_natAbs hpos)
  | u =>
    have hlow := toNat_low v
    rw [Nat.mod_eq_of_lt h] at hlow
    ext1
    · rfl
    · rfl
    · rfl
    · exact hlow.symm
  | lx => rfl
  | lUpperX => rfl
  | lu => rfl
  | x => rfl
  | upperX => rfl

structure Unsigned (n : Number) : Prop where
  neg : n.neg = false
  base : n.base = 10
  upper : n.upper = false

theorem Unsigned.sign (h : Unsigned n) : n.sign = [] := by
  rw [Number.sign, h.neg]
  rfl

/-- An upper half that is not zero makes the number larger. -/
theorem numberOf_gt (h : ¬ Fetched k v) :
    Unsigned (numberOf k v) ∧ Unsigned (isoNumber k v) ∧
      (isoNumber k v).uval < (numberOf k v).uval := by
  have hlow := toNat_low v
  have hgt : ¬ v.toNat < 2 ^ 32 → (v.setWidth 32).toNat < v.toNat := by omega
  cases k with
  | d =>
    obtain ⟨hpos, hhigh⟩ := not_or.1 h
    have hcode : signOf v false = (false, v.toNat) := by rw [signOf_int, if_neg hpos]
    refine ⟨⟨?_, rfl, rfl⟩, ⟨decide_eq_false hpos, rfl, rfl⟩, ?_⟩
    · simp only [numberOf, hcode]
    · simp only [numberOf, isoNumber, hcode]
      rw [← toNat_eq_natAbs hpos]
      exact hgt hhigh
  | u => exact ⟨⟨rfl, rfl, rfl⟩, ⟨rfl, rfl, rfl⟩, hgt h⟩
  | ld => exact absurd trivial h
  | lx => exact absurd trivial h
  | lUpperX => exact absurd trivial h
  | lu => exact absurd trivial h
  | x => exact absurd trivial h
  | upperX => exact absurd trivial h

theorem length_isoNumber_le (k : NumConv) (v : BitVec 64) :
    (isoNumber k v).rev.length ≤ (numberOf k v).rev.length := by
  by_cases h : Fetched k v
  · rw [numberOf_eq h]
  · obtain ⟨hcode, hiso, hlt⟩ := numberOf_gt h
    rw [Number.rev, Number.rev, List.length_append, List.length_append, length_revChars,
      length_revChars, hcode.sign, hiso.sign, hcode.base, hiso.base]
    exact Nat.add_le_add_right (length_revDigits_mono 10 (Nat.le_of_lt hlt)) _

/-! ## Where the padding goes -/

theorem Spec.pad_field (s : Spec) (len : Nat) : s.field.pad len = s.width - len := by
  rw [Field.pad, field]
  dsimp only
  split <;> omega

theorem Spec.field_minus (s : Spec) : s.field.minus = true ↔ .minus ∈ s.flags := decide_eq_true_iff

theorem Spec.field_zeropad (s : Spec) : s.field.zeropad = true ↔ .zero ∈ s.flags :=
  decide_eq_true_iff

theorem padText_field (n : Number) (s : Spec) :
    padText n.rev s.field =
      if .minus ∈ s.flags then
        n.rev.reverse ++ List.replicate (s.width - n.rev.length) s.field.fill
      else List.replicate (s.width - n.rev.length) s.field.fill ++ n.rev.reverse := by
  rw [padText, s.pad_field]
  by_cases hm : .minus ∈ s.flags
  · rw [if_pos (s.field_minus.2 hm), if_pos hm, List.reverse_append, List.reverse_replicate]
  · rw [if_neg (mt s.field_minus.1 hm), if_neg hm, List.reverse_append, List.reverse_replicate]

theorem fill_zero (h : .zero ∈ s.flags) : s.field.fill = 48 :=
  if_pos (s.field_zeropad.2 h)

theorem fill_blank (h : .zero ∉ s.flags) : s.field.fill = 32 :=
  if_neg (mt s.field_zeropad.1 h)

theorem length_sign_digits (n : Number) :
    (n.sign ++ n.digits.map (digitChar n.upper)).length = n.rev.length := by
  rw [← n.reverse_rev, List.length_reverse]

theorem padText_eq_iff (n : Number) (s : Spec) :
    padText n.rev s.field = isoNum n s ↔
      (.zero ∈ s.flags → n.rev.length < s.width → .minus ∉ s.flags ∧ n.neg = false) := by
  rw [padText_field, isoNum, isoField, length_sign_digits, n.reverse_rev]
  by_cases hm : .minus ∈ s.flags
  · rw [if_pos hm, if_pos hm, List.append_right_inj]
    by_cases hz : .zero ∈ s.flags
    · rw [fill_zero hz, List.replicate_inj]
      constructor
      · rintro ⟨-, hempty | hsame⟩ - hlt
        · omega
        · exact absurd hsame (by decide)
      · intro h
        refine ⟨rfl, .inl ?_⟩
        by_contra hpad
        exact (h hz (by omega)).1 hm
    · rw [fill_blank hz]
      exact ⟨fun _ hzero => absurd hzero hz, fun _ => rfl⟩
  · rw [if_neg hm, if_neg hm]
    by_cases hz : .zero ∈ s.flags
    · rw [if_pos hz, fill_zero hz]
      cases hn : n.neg with
      | false =>
        have hsign : n.sign = [] := by rw [Number.sign, hn]; rfl
        rw [hsign]
        exact ⟨fun _ _ _ => ⟨hm, rfl⟩, fun _ => rfl⟩
      | true =>
        have hsign : n.sign = [45] := by rw [Number.sign, hn]; rfl
        rw [hsign]
        constructor
        · -- the first character is a zero here and the sign there
          intro heq _ hlt
          obtain ⟨k, hk⟩ : ∃ k, s.width - n.rev.length = k + 1 :=
            ⟨s.width - n.rev.length - 1, by omega⟩
          rw [hk, List.replicate_succ] at heq
          exact absurd (List.cons.inj heq).1 (by decide)
        · intro h
          have hfull : s.width - n.rev.length = 0 := by
            by_contra hpad
            cases (h hz (by omega)).2
          rw [hfull]
          rfl
    · rw [if_neg hz, fill_blank hz]
      exact ⟨fun _ hzero => absurd hzero hz, fun _ => rfl⟩

/-! ## Reading a decimal number, blanks aside -/

def readStep (acc : Nat) (c : Byte) : Nat := if c = 32 then acc else acc * 10 + (c.toNat - 48)

theorem read_blanks (k acc : Nat) : (List.replicate k (32 : Byte)).foldl readStep acc = acc := by
  induction k with
  | zero => rfl
  | succ k ih =>
    rw [List.replicate_succ, List.foldl_cons]
    exact ih

theorem read_zeros (k acc : Nat) :
    (List.replicate k (48 : Byte)).foldl readStep acc = acc * 10 ^ k := by
  induction k generalizing acc with
  | zero => exact (Nat.mul_one acc).symm
  | succ k ih =>
    have hstep : readStep acc 48 = acc * 10 := rfl
    rw [List.replicate_succ, List.foldl_cons, hstep, ih, Nat.pow_succ', Nat.mul_assoc]

theorem read_digits {ds : List Nat} (h : ∀ d ∈ ds, d < 10) (acc : Nat) :
    (ds.map (digitChar false)).foldl readStep acc = ds.foldl (horner 10) acc := by
  have hdigit : ∀ d < 10, digitChar false d ≠ 32 ∧ (digitChar false d).toNat - 48 = d := by
    decide
  induction ds generalizing acc with
  | nil => rfl
  | cons d ds ih =>
    obtain ⟨hblank, hvalue⟩ := hdigit d (h d List.mem_cons_self)
    have hstep : readStep acc (digitChar false d) = horner 10 acc d := by
      rw [readStep, if_neg hblank, hvalue, horner]
    rw [List.map_cons, List.foldl_cons, List.foldl_cons, hstep]
    exact ih (fun e he => h e (List.mem_cons_of_mem d he)) _

theorem read_number (h : Unsigned n) : n.rev.reverse.foldl readStep 0 = n.uval := by
  have hlt := n.digits_lt
  have hvalue := n.digits_value
  rw [h.base] at hlt hvalue
  rw [n.reverse_rev, h.sign, List.nil_append, h.upper, read_digits hlt, hvalue]

theorem le_read_padText (h : Unsigned n) (s : Spec) :
    n.uval ≤ (padText n.rev s.field).foldl readStep 0 := by
  rw [padText_field]
  by_cases hz : .zero ∈ s.flags
  · rw [fill_zero hz]
    split
    · rw [List.foldl_append, read_number h, read_zeros]
      exact Nat.le_mul_of_pos_right _ (Nat.pow_pos (by decide))
    · rw [List.foldl_append, read_zeros, Nat.zero_mul, read_number h]
  · rw [fill_blank hz]
    split
    · rw [List.foldl_append, read_number h, read_blanks]
    · rw [List.foldl_append, read_blanks, read_number h]

theorem read_isoNum (h : Unsigned n) (s : Spec) : (isoNum n s).foldl readStep 0 = n.uval := by
  have hread := read_number h
  rw [n.reverse_rev, h.sign, List.nil_append] at hread
  rw [isoNum, isoField, h.sign]
  simp only [List.nil_append]
  split
  · rw [List.foldl_append, hread, read_blanks]
  · split
    · rw [List.foldl_append, read_zeros, Nat.zero_mul, hread]
    · rw [List.foldl_append, read_blanks, hread]

/-- A number with more digits than the argument has is not hidden by the padding. -/
theorem fetched_of_text (h : padText (numberOf k v).rev s.field = isoNum (isoNumber k v) s) :
    Fetched k v := by
  by_contra hnot
  obtain ⟨hcode, hiso, hlt⟩ := numberOf_gt hnot
  have hle := le_read_padText hcode s
  rw [h, read_isoNum hiso] at hle
  omega

theorem num_text_iff (k : NumConv) (s : Spec) (v : BitVec 64) :
    (Item.num k s v).piece.text = (Item.num k s v).iso ↔ (Item.num k s v).Good := by
  constructor
  · intro h
    have hfetch : Fetched k v := fetched_of_text h
    have htext : padText (numberOf k v).rev s.field = isoNum (isoNumber k v) s := h
    rw [numberOf_eq hfetch] at htext
    exact ⟨hfetch, (padText_eq_iff _ s).1 htext⟩
  · rintro ⟨hfetch, hpad⟩
    change padText (numberOf k v).rev s.field = isoNum (isoNumber k v) s
    rw [numberOf_eq hfetch]
    exact (padText_eq_iff _ s).2 hpad

/-! ## Counting blanks -/

theorem count_rev (n : Number) : n.rev.reverse.count 32 = 0 := by
  have hdigit : ∀ d < 16, ∀ upper, digitChar upper d ≠ 32 := by decide
  have hb := n.base_ok
  rw [List.count_eq_zero, n.reverse_rev, List.mem_append, not_or]
  constructor
  · rw [Number.sign]
    split <;> decide
  · rw [List.mem_map]
    rintro ⟨d, hd, hd'⟩
    exact hdigit d ((n.digits_lt d hd).trans_le (by omega)) _ hd'

theorem count_padText (n : Number) (s : Spec) :
    (padText n.rev s.field).count 32 =
      if .zero ∈ s.flags then 0 else s.width - n.rev.length := by
  have hfill : (List.replicate (s.width - n.rev.length) s.field.fill).count 32 =
      if .zero ∈ s.flags then 0 else s.width - n.rev.length := by
    split
    · rename_i hz
      rw [fill_zero hz, List.count_replicate]
      rfl
    · rename_i hz
      rw [fill_blank hz, List.count_replicate_self]
  rw [padText_field]
  split
  · rw [List.count_append, count_rev, hfill, Nat.zero_add]
  · rw [List.count_append, count_rev, hfill, Nat.add_zero]

theorem le_count_isoNum (n : Number) (hz : .zero ∉ s.flags) :
    s.width - n.rev.length ≤ (isoNum n s).count 32 := by
  rw [isoNum, isoField, length_sign_digits, if_neg hz]
  split
  · rw [List.count_append, List.count_replicate_self]
    exact Nat.le_add_left _ _
  · rw [List.count_append, List.count_replicate_self]
    exact Nat.le_add_right _ _

theorem Spec.padS_field (s : Spec) (len : Nat) : padS len s.field.minw = s.width - len := by
  have hw := s.width_le
  have hu : u64 (s.width : Int) = s.width := by
    rw [u64_natCast]
    omega
  rw [padS, field]
  dsimp only
  rw [hu]
  split
  · rw [i32_of_lt (by omega) (by omega)]
    omega
  · omega

theorem textS_field (hz : .zero ∉ s.flags) (t : CString) :
    textS t s.field = isoField s [] t.chars := by
  rw [textS, s.padS_field, isoField, if_neg hz]
  by_cases hm : .minus ∈ s.flags
  · rw [if_pos (s.field_minus.2 hm), if_pos hm]
    rfl
  · rw [if_neg (mt s.field_minus.1 hm), if_neg hm]
    rfl

theorem isoField_char (hz : .zero ∉ s.flags) (c : Byte) :
    (isoField s [] [c]).length = max 1 s.width ∧
      (isoField s [] [c]).count 32 = (s.width - 1) + [c].count 32 := by
  rw [isoField, if_neg hz, List.nil_append, List.length_singleton]
  split
  · rw [List.length_append, List.count_append, List.length_replicate, List.count_replicate_self,
      List.length_singleton]
    omega
  · rw [List.length_append, List.count_append, List.length_replicate, List.count_replicate_self,
      List.length_singleton]
    exact ⟨by omega, rfl⟩

theorem Item.Defined.count_le (h : i.Defined) : i.piece.text.count 32 ≤ i.iso.count 32 := by
  cases i with
  | lit c hc => exact Nat.le_refl _
  | num k s v =>
    have hlen := length_isoNumber_le k v
    refine (count_padText _ s).trans_le ?_
    split
    · exact Nat.zero_le _
    · rename_i hz
      exact (Nat.sub_le_sub_left hlen _).trans (le_count_isoNum _ hz)
  | char s v =>
    refine Nat.le_trans ?_ (isoField_char h (v.setWidth 8)).2.symm.le
    exact Nat.le_add_left _ _
  | str s t => exact (congrArg (List.count 32) (textS_field h t)).le

theorem Item.Defined.length_le (h : i.Defined) (hcount : i.piece.text.count 32 = i.iso.count 32) :
    i.iso.length ≤ i.piece.text.length := by
  cases i with
  | lit c hc => exact Nat.le_refl _
  | num k s v =>
    have hlen := length_isoNumber_le k v
    have hcode := length_padText (numberOf k v).rev s.field
    have hiso : (isoNum (isoNumber k v) s).length =
        (isoNumber k v).rev.length + (s.width - (isoNumber k v).rev.length) := by
      rw [isoNum, isoField, length_sign_digits]
      have hsum := length_sign_digits (isoNumber k v)
      rw [List.length_append] at hsum
      split
      · simp only [List.length_append, List.length_replicate]
        omega
      · split
        · simp only [List.length_append, List.length_replicate]
          omega
        · simp only [List.length_append, List.length_replicate]
          omega
    rw [s.pad_field] at hcode
    refine hiso.trans_le (Nat.le_trans ?_ hcode.symm.le)
    omega
  | char s v =>
    obtain ⟨hlen, hblanks⟩ := isoField_char h (v.setWidth 8)
    have hsame : [v.setWidth 8].count 32 = s.width - 1 + [v.setWidth 8].count 32 :=
      hcount.trans hblanks
    refine hlen.trans_le ?_
    change max 1 s.width ≤ 1
    omega
  | str s t => exact (congrArg List.length (textS_field h t)).symm.le

/-! ## Texts one after another -/

theorem eq_of_sum_eq {α : Type} {f g : α → Nat} {l : List α} (hle : ∀ a ∈ l, f a ≤ g a)
    (hsum : (l.map g).sum ≤ (l.map f).sum) : ∀ a ∈ l, f a = g a := by
  induction l with
  | nil => exact fun a ha => absurd ha List.not_mem_nil
  | cons b l ih =>
    have hhead := hle b List.mem_cons_self
    have htail : ∀ a ∈ l, f a ≤ g a := fun a ha => hle a (List.mem_cons_of_mem b ha)
    have hrest := List.sum_le_sum htail
    rw [List.map_cons, List.map_cons, List.sum_cons, List.sum_cons] at hsum
    intro a ha
    rcases List.mem_cons.1 ha with rfl | ha
    · omega
    · exact ih htail (by omega) a ha

theorem eq_of_flatMap_eq {α β : Type} {f g : α → List β} {l : List α}
    (hlen : ∀ a ∈ l, (f a).length = (g a).length) (h : l.flatMap f = l.flatMap g) :
    ∀ a ∈ l, f a = g a := by
  induction l with
  | nil => exact fun a ha => absurd ha List.not_mem_nil
  | cons b l ih =>
    rw [List.flatMap_cons, List.flatMap_cons] at h
    obtain ⟨hhead, htail⟩ := List.append_inj h (hlen b List.mem_cons_self)
    intro a ha
    rcases List.mem_cons.1 ha with rfl | ha
    · exact hhead
    · exact ih (fun a ha => hlen a (List.mem_cons_of_mem b ha)) htail a ha

/-- When the whole text is right, every item is. -/
theorem text_eq_of_flatMap {items : List Item} (hdef : ∀ i ∈ items, i.Defined)
    (h : (items.flatMap fun i => i.piece.text) = items.flatMap Item.iso) :
    ∀ i ∈ items, i.piece.text = i.iso := by
  have hcount : ∀ i ∈ items, i.piece.text.count 32 = i.iso.count 32 := by
    apply eq_of_sum_eq fun i hi => (hdef i hi).count_le
    have := congrArg (List.count 32) h
    rw [List.count_flatMap, List.count_flatMap] at this
    exact this.symm.le
  have hlen : ∀ i ∈ items, i.iso.length = i.piece.text.length := by
    apply eq_of_sum_eq fun i hi => (hdef i hi).length_le (hcount i hi)
    have := congrArg List.length h
    rw [List.length_flatMap, List.length_flatMap] at this
    exact this.le
  exact eq_of_flatMap_eq (fun i hi => (hlen i hi).symm) h

/-! ## Whole calls -/

theorem clean_of_harmless {ps : List Piece} (h : ∀ p ∈ ps, ∀ room, p.harmless (room + 1) = true)
    (room : Nat) : clean room ps = true := by
  induction ps generalizing room with
  | nil => rfl
  | cons p ps ih =>
    rw [clean, Bool.or_eq_true, Bool.and_eq_true, decide_eq_true_iff]
    cases room with
    | zero => exact .inl rfl
    | succ room =>
      exact .inr ⟨h p List.mem_cons_self room,
        ih (fun q hq => h q (List.mem_cons_of_mem p hq)) _⟩

/-- With room for the whole text every piece is reached. -/
theorem harmless_of_clean {ps : List Piece} {room : Nat} (h : clean room ps = true)
    (hroom : (ps.flatMap Piece.text).length < room) :
    ∀ p ∈ ps, ∃ left, p.harmless left = true := by
  induction ps generalizing room with
  | nil => exact fun p hp => absurd hp List.not_mem_nil
  | cons p ps ih =>
    rw [List.flatMap_cons, List.length_append] at hroom
    rw [clean, Bool.or_eq_true, Bool.and_eq_true, decide_eq_true_iff] at h
    obtain ⟨hp, hrest⟩ := h.resolve_left (by omega)
    intro q hq
    rcases List.mem_cons.1 hq with rfl | hq
    · exact ⟨room, hp⟩
    · exact ih hrest (by omega) q hq

theorem Item.Good.harmless (h : i.Good) (room : Nat) : i.piece.harmless (room + 1) = true := by
  cases i with
  | lit c hc => rfl
  | num k s v =>
    have hw := s.width_le
    have hle : (s.width : Int) ≤ 32 := by omega
    exact decide_eq_true hle
  | char s v => rfl
  | str s t => exact decide_eq_true h

theorem Item.Good.text_eq (hdef : i.Defined) (h : i.Good) : i.piece.text = i.iso := by
  cases i with
  | lit c hc => rfl
  | num k s v => exact (num_text_iff k s v).2 h
  | char s v =>
    have hw : s.width - 1 = 0 := Nat.sub_eq_zero_of_le h
    change [v.setWidth 8] = isoField s [] [v.setWidth 8]
    rw [isoField, if_neg hdef, List.nil_append, List.length_singleton, hw]
    split <;> rfl
  | str s t => exact textS_field hdef t

theorem good_of_text (hdef : i.Defined) (htext : i.piece.text = i.iso)
    (hharm : ∃ room, i.piece.harmless room = true) : i.Good := by
  cases i with
  | lit c hc => trivial
  | num k s v => exact (num_text_iff k s v).1 htext
  | char s v =>
    have hlen := (isoField_char hdef (v.setWidth 8)).1
    have hone : (isoField s [] [v.setWidth 8]).length = 1 := congrArg List.length htext.symm
    change s.width ≤ 1
    omega
  | str s t =>
    obtain ⟨room, hroom⟩ := hharm
    have hne : t.chars ≠ [] := of_decide_eq_true hroom
    exact hne

theorem flatMap_piece (items : List Item) :
    (items.map Item.piece).flatMap Piece.text = items.flatMap fun i => i.piece.text :=
  List.flatMap_map _ _ items

/-- For a format whose text ISO C prescribes: that text is printed, cut off for any size of the
buffer, exactly if every conversion is good. -/
theorem vsnprintf_iso_iff (items : List Item) (hdef : ∀ i ∈ items, i.Defined) :
    (∀ size, 1 ≤ size → ∃ r, vsnprintf size (formatOf items) (argsOf items) =
        .ok ((items.flatMap Item.iso).take (size - 1) ++ [0], r)) ↔
      ∀ i ∈ items, i.Good := by
  constructor
  · intro h
    obtain ⟨r, hrun⟩ := h (2 + (items.flatMap fun i => i.piece.text).length +
      (items.flatMap Item.iso).length) (by omega)
    cases hclean : clean (2 + (items.flatMap fun i => i.piece.text).length +
        (items.flatMap Item.iso).length - 1) (items.map Item.piece) with
    | false => exact absurd hrun (vsnprintf_trips (pieces_items items) hclean _)
    | true =>
      rw [vsnprintf_eq (by omega) (pieces_items items) hclean, flatMap_piece] at hrun
      have htext := (List.append_left_inj [0]).1 (Prod.mk.inj (Except.ok.inj hrun)).1
      rw [List.take_of_length_le (by omega), List.take_of_length_le (by omega)] at htext
      have hharm := harmless_of_clean hclean (by rw [flatMap_piece]; omega)
      intro i hi
      exact good_of_text (hdef i hi) (text_eq_of_flatMap hdef htext i hi)
        (hharm _ (List.mem_map_of_mem hi))
  · intro h size hsize
    have hclean : clean (size - 1) (items.map Item.piece) = true := by
      refine clean_of_harmless (fun p hp => ?_) _
      obtain ⟨i, hi, rfl⟩ := List.mem_map.1 hp
      exact (h i hi).harmless
    have htext : (items.map Item.piece).flatMap Piece.text = items.flatMap Item.iso := by
      rw [flatMap_piece]
      exact List.flatMap_congr fun i hi => (h i hi).text_eq (hdef i hi)
    rw [vsnprintf_eq hsize (pieces_items items) hclean, htext]
    exact ⟨_, rfl⟩

/-- `%-5d|%x` with 42 and 255. -/
theorem vsnprintf_iso_two_numbers :
    ∃ r, vsnprintf 16 (formatOf [.num .d ⟨[.minus], 5, by decide⟩ 42, .lit 124 (by decide),
          .num .x ⟨[], 0, by decide⟩ 255])
        (argsOf [.num .d ⟨[.minus], 5, by decide⟩ 42, .lit 124 (by decide),
          .num .x ⟨[], 0, by decide⟩ 255]) =
        .ok ([52, 50, 32, 32, 32, 124, 102, 102].take 15 ++ [0], r) := by
  refine (vsnprintf_iso_iff _ ?_).2 ?_ 16 (by decide)
  · simp [Item.Defined]
  · simp [Item.Good, Fetched]

/-- `%-05d` of 42 prints `42000`, `%05d` of -42 prints `00-42`, `%3c` of `a` prints `a`, and `%d`
of 7 whose slot has a 1 in its upper half prints 4294967303. -/
theorem vsnprintf_iso_fails :
    vsnprintf 16 (formatOf [.num .d ⟨[.minus, .zero], 5, by decide⟩ 42])
        [.word 42] = .ok ([52, 50, 48, 48, 48, 0], 5) ∧
      (Item.num .d ⟨[.minus, .zero], 5, by decide⟩ 42).iso = [52, 50, 32, 32, 32] ∧
    vsnprintf 16 (formatOf [.num .d ⟨[.zero], 5, by decide⟩ (-42)])
        [.word (-42)] = .ok ([48, 48, 45, 52, 50, 0], 5) ∧
      (Item.num .d ⟨[.zero], 5, by decide⟩ (-42)).iso = [45, 48, 48, 52, 50] ∧
    vsnprintf 16 (formatOf [.char ⟨[], 3, by decide⟩ 97]) [.word 97] = .ok ([97, 0], 1) ∧
      (Item.char ⟨[], 3, by decide⟩ 97).iso = [32, 32, 97] ∧
    vsnprintf 16 (formatOf [.num .d ⟨[], 0, by decide⟩ 0x100000007]) [.word 0x100000007] =
        .ok ([52, 50, 57, 52, 57, 54, 55, 51, 48, 51, 0], 10) ∧
      (Item.num .d ⟨[], 0, by decide⟩ 0x100000007).iso = [55] := by
  refine ⟨rfl, ?_, rfl, ?_, rfl, rfl, rfl, ?_⟩
  · decide +kernel
  · decide +kernel
  · decide +kernel

end SpringOs.Print
