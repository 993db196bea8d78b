import SpringOs.PrintSafe

/-!
Formats of literal characters and the conversions `%[0|-]*[width](d|u|x|X|ld|lu|lx|lX|c|s)`,
with a width of at most 31.

* `Item`: what such a format is put together from, with the arguments;
* `field_parse`: the flags and the width are read back from their text;
* **`pieces_items`**: a format is taken apart as it was put together.
-/

namespace SpringOs.Print
open Kernel Lib.Word Lib.Bytes

/-! ## Formats -/

inductive Flag
  | zero
  | minus
  deriving DecidableEq, Repr

def Flag.char : Flag → Byte
  | .zero => 48
  | .minus => 45

/-- A width has no leading zeros: those are flags. -/
def widthText (w : Nat) : List Byte :=
  if w = 0 then []
  else if w < 10 then [.ofNat 8 (48 + w)]
  else [.ofNat 8 (48 + w / 10), .ofNat 8 (48 + w % 10)]

/-- The flags and the width of a conversion. No width is a width of 0. -/
structure Spec where
  flags : List Flag
  width : Nat
  width_le : width ≤ 31

def Spec.text (s : Spec) : List Byte := s.flags.map Flag.char ++ widthText s.width

def Spec.field (s : Spec) : Field := ⟨.zero ∈ s.flags, .minus ∈ s.flags, s.width⟩

def NumConv.letters : NumConv → List Byte
  | .ld => [108, 100]
  | .lx => [108, 120]
  | .lUpperX => [108, 88]
  | .lu => [108, 117]
  | .d => [100]
  | .u => [117]
  | .x => [120]
  | .upperX => [88]

/-- A literal character, or a conversion with the slot of its argument. A 32-bit argument is the
lower half of its slot; the calling convention says nothing about the upper half. -/
inductive Item
  | lit (c : Byte) (h : c ≠ 0 ∧ c ≠ 37)
  | num (k : NumConv) (s : Spec) (v : BitVec 64)
  | char (s : Spec) (v : BitVec 64)
  | str (s : Spec) (t : CString)

def Item.format : Item → List Byte
  | .lit c _ => [c]
  | .num k s _ => 37 :: (s.text ++ k.letters)
  | .char s _ => 37 :: (s.text ++ [99])
  | .str s _ => 37 :: (s.text ++ [115])

def Item.args : Item → List Arg
  | .lit _ _ => []
  | .num _ _ v => [.word v]
  | .char _ v => [.word v]
  | .str _ t => [.str t]

/-! ## Taking the format apart -/

def Item.piece : Item → Piece
  | .lit c _ => .lit c
  | .num k s v => .num k s.field v
  | .char _ v => .char v
  | .str s t => .str s.field t

theorem flagLoop_flags (flags : List Flag) (zeropad minus : Bool) (rest : List Byte) :
    flagLoop (flags.map Flag.char ++ rest) zeropad minus =
      flagLoop rest (zeropad || .zero ∈ flags) (minus || .minus ∈ flags) := by
  induction flags generalizing zeropad minus with
  | nil => simp
  | cons flag flags ih =>
    cases flag with
    | zero =>
      have hchar : Flag.zero.char = 48 := rfl
      rw [List.map_cons, List.cons_append, flagLoop, if_pos hchar, ih]
      simp
    | minus =>
      have hzero : Flag.minus.char ≠ 48 := by decide
      have hchar : Flag.minus.char = 45 := rfl
      rw [List.map_cons, List.cons_append, flagLoop, if_neg hzero, if_pos hchar, ih]
      simp

/-- A character that is neither flag nor digit. -/
def Letter (c : Byte) : Prop := c ≠ 48 ∧ c ≠ 45 ∧ ¬ (48 ≤ c.toNat ∧ c.toNat ≤ 57)

instance (c : Byte) : Decidable (Letter c) := inferInstanceAs (Decidable (_ ∧ _))

variable {c : Byte} {d w : Nat}

theorem flagLoop_stop (h : c ≠ 48 ∧ c ≠ 45) (zeropad minus : Bool) (rest : List Byte) :
    flagLoop (c :: rest) zeropad minus = (zeropad, minus, c :: rest) := by
  rw [flagLoop, if_neg h.1, if_neg h.2]

theorem widthLoop_stop (h : Letter c) (minw : Int) (rest : List Byte) :
    widthLoop (c :: rest) minw = (minw, c :: rest) := by
  rw [widthLoop, if_neg h.2.2]

theorem widthLoop_digit {minw : Nat} (hd : d < 10) (hw : minw * 10 + d < 2 ^ 31)
    (rest : List Byte) :
    widthLoop (.ofNat 8 (48 + d) :: rest) minw = widthLoop rest (minw * 10 + d : Nat) := by
  have hbyte : (BitVec.ofNat 8 (48 + d)).toNat = 48 + d := by
    rw [BitVec.toNat_ofNat]
    omega
  rw [widthLoop, hbyte, if_pos (by omega), i32_of_lt (by omega) (by omega)]
  congr 1
  omega

theorem digit_ne (hlow : 1 ≤ d) (hhigh : d < 10) :
    BitVec.ofNat 8 (48 + d) ≠ (48 : Byte) ∧ BitVec.ofNat 8 (48 + d) ≠ (45 : Byte) := by
  have hbyte : (BitVec.ofNat 8 (48 + d)).toNat = 48 + d := by
    rw [BitVec.toNat_ofNat]
    omega
  constructor
  · intro h
    have h48 : (BitVec.ofNat 8 (48 + d)).toNat = 48 := by rw [h]; rfl
    omega
  · intro h
    have h45 : (BitVec.ofNat 8 (48 + d)).toNat = 45 := by rw [h]; rfl
    omega

theorem width_parse (hw : w ≤ 31) (hc : Letter c) (zeropad minus : Bool) (rest : List Byte) :
    flagLoop (widthText w ++ c :: rest) zeropad minus =
        (zeropad, minus, widthText w ++ c :: rest) ∧
      widthLoop (widthText w ++ c :: rest) 0 = ((w : Int), c :: rest) := by
  rw [widthText]
  split
  · rename_i hzero
    subst hzero
    exact ⟨flagLoop_stop ⟨hc.1, hc.2.1⟩ _ _ _, widthLoop_stop hc _ _⟩
  · split
    · rename_i hne hlt
      refine ⟨flagLoop_stop (digit_ne (by omega) hlt) _ _ _, ?_⟩
      have hone := widthLoop_digit hlt (show 0 * 10 + w < 2 ^ 31 by omega) (c :: rest)
      rw [widthLoop_stop hc, Nat.zero_mul, Nat.zero_add] at hone
      exact hone
    · rename_i hne hge
      have htens : w / 10 * 10 + w % 10 = w := Nat.div_add_mod' w 10
      refine ⟨flagLoop_stop (digit_ne (by omega) (by omega)) _ _ _, ?_⟩
      have hone := widthLoop_digit (show w / 10 < 10 by omega)
        (show 0 * 10 + w / 10 < 2 ^ 31 by omega) (.ofNat 8 (48 + w % 10) :: c :: rest)
      rw [Nat.zero_mul, Nat.zero_add, widthLoop_digit (show w % 10 < 10 by omega) (by omega),
        htens, widthLoop_stop hc] at hone
      exact hone

theorem field_parse (s : Spec) (hc : Letter c) (rest : List Byte) :
    field (s.text ++ c :: rest) = (s.field, c :: rest) := by
  obtain ⟨hflags, hwidth⟩ := width_parse s.width_le hc (false || decide (.zero ∈ s.flags))
    (false || decide (.minus ∈ s.flags)) rest
  rw [field, Spec.text, List.append_assoc, flagLoop_flags, hflags]
  dsimp only
  rw [hwidth, Bool.false_or, Bool.false_or]
  rfl

theorem NumConv.letters_cons (k : NumConv) : ∃ c cs, k.letters = c :: cs ∧ Letter c := by
  cases k <;> exact ⟨_, _, rfl, by decide⟩

theorem nextPiece_num (k : NumConv) (s : Spec) (v : BitVec 64) (rest : List Byte)
    (ap : List Arg) :
    nextPiece (s.text ++ k.letters ++ rest) (.word v :: ap) =
      .ok (some (.num k s.field v, rest, ap)) := by
  obtain ⟨c, cs, hk, hc⟩ := k.letters_cons
  have hparse : field (s.text ++ (k.letters ++ rest)) = (s.field, k.letters ++ rest) := by
    rw [hk]
    exact field_parse s hc (cs ++ rest)
  rw [List.append_assoc, nextPiece, hparse]
  cases k <;> rfl

theorem Item.format_cases (i : Item) :
    (∃ c, i.format = [c] ∧ c ≠ 37 ∧ i.piece = .lit c ∧ i.args = []) ∨
    ∃ body, i.format = 37 :: body ∧ ∀ rest ap,
      nextPiece (body ++ rest) (i.args ++ ap) = .ok (some (i.piece, rest, ap)) := by
  cases i with
  | lit c h => exact .inl ⟨c, rfl, h.2, rfl, rfl⟩
  | num k s v => exact .inr ⟨_, rfl, fun rest ap => nextPiece_num k s v rest ap⟩
  | char s v | str s t =>
    refine .inr ⟨_, rfl, fun rest ap => ?_⟩
    rw [List.append_assoc, nextPiece, List.singleton_append, field_parse s (by decide)]
    rfl

theorem pieceLoop_items {items : List Item} {fuel : Nat}
    (hfuel : (items.flatMap Item.format).length < fuel) :
    pieceLoop fuel (items.flatMap Item.format) (items.flatMap Item.args) =
      .ok (items.map Item.piece) := by
  induction items generalizing fuel with
  | nil =>
    cases fuel with
    | zero => exact absurd hfuel (Nat.not_lt_zero _)
    | succ fuel => rfl
  | cons i items ih =>
    rw [List.flatMap_cons, List.length_append] at hfuel
    obtain ⟨fuel, rfl⟩ : ∃ n, fuel = n + 1 := ⟨fuel - 1, by omega⟩
    rw [List.flatMap_cons, List.flatMap_cons, List.map_cons]
    rcases i.format_cases with ⟨c, hformat, hc, hpiece, hargs⟩ | ⟨body, hformat, hnext⟩
    · rw [hformat, List.length_singleton] at hfuel
      rw [hformat, hargs, hpiece, List.singleton_append, List.nil_append, pieceLoop, if_neg hc,
        ih (by omega)]
      rfl
    · rw [hformat, List.length_cons] at hfuel
      rw [hformat, List.cons_append, pieceLoop, if_pos rfl, hnext]
      change (do return i.piece :: (← pieceLoop fuel _ _)) = _
      rw [ih (by omega)]
      rfl

theorem widthText_no_nul (hw : w ≤ 31) : 0 ∉ widthText w := by
  have hdigit : ∀ d < 10, (0 : Byte) ≠ .ofNat 8 (48 + d) := by decide
  rw [widthText]
  split
  · exact List.not_mem_nil
  · split
    · rename_i hlt
      rw [List.mem_singleton]
      exact hdigit w hlt
    · rw [List.mem_cons, List.mem_singleton, not_or]
      exact ⟨hdigit _ (by omega), hdigit _ (by omega)⟩

theorem Spec.text_no_nul (s : Spec) : 0 ∉ s.text := by
  rw [text, List.mem_append, not_or]
  refine ⟨?_, widthText_no_nul s.width_le⟩
  rw [List.mem_map]
  rintro ⟨flag, -, hflag⟩
  cases flag <;> exact absurd hflag (by decide)

theorem Item.format_no_nul (i : Item) : 0 ∉ i.format := by
  have hconv : ∀ (s : Spec) {letters : List Byte}, 0 ∉ letters →
      0 ∉ 37 :: (s.text ++ letters) := by
    intro s letters hletters
    rw [List.mem_cons, List.mem_append, not_or, not_or]
    exact ⟨by decide, s.text_no_nul, hletters⟩
  cases i with
  | lit c h => exact fun hmem => h.1 (List.mem_singleton.1 hmem).symm
  | num k s v => exact hconv s (by cases k <;> decide)
  | char s v | str s t => exact hconv s (by decide)

def formatOf (items : List Item) : CString where
  chars := items.flatMap Item.format
  no_nul := by
    rw [List.mem_flatMap]
    rintro ⟨i, -, hi⟩
    exact i.format_no_nul hi

def argsOf (items : List Item) : List Arg := items.flatMap Item.args

theorem pieces_items (items : List Item) :
    pieces (formatOf items) (argsOf items) = .ok (items.map Item.piece) :=
  pieceLoop_items (Nat.lt_succ_self _)

end SpringOs.Print
