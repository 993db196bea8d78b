import SpringOs.Kernel
import SpringOs.Lib.Bytes
import SpringOs.Lib.Numeral

/-!
`vsnprintf` and the conversions of the kernel's `print.c`.

The text is written from the start of `buf` on, so the buffer is kept as what has been written
to it, and a scratch array as its first `idx` bytes. A string stands for its characters in
front of the NUL. Characters are unsigned, as on arm64, and `int` wraps around.

* `fmtNum_eq`: every number is its digits and sign, backwards, padded on one side;
* `putPiece_eq`, `putPiece_trips`: what one conversion writes, and what trips it;
* **`putPieces_of_clean`**: the text of all of them, cut off where the room ends.
-/

namespace SpringOs.Print
open Kernel Lib.Word Lib.Bytes Lib.Numeral

structure CString where
  chars : List Byte
  no_nul : 0 ∉ chars

/-- What `va_arg` finds: a slot of 64 bits, or a pointer to a string. -/
inductive Arg
  | word (v : BitVec 64)
  | str (s : CString)

/-! ## The buffer -/

/-- `buf` has `size` bytes; `text` is what stands between `bufstart` and `buf`. -/
structure Sink where
  size : Nat
  text : List Byte

/-- `bufend - buf`: the last byte is kept for the NUL. -/
def Sink.room (out : Sink) : Nat := out.size - 1 - out.text.length

/-- `*buf++ = c` -/
def Sink.put (out : Sink) (c : Byte) : Except Fault Sink :=
  if out.text.length < out.size then .ok { out with text := out.text ++ [c] }
  else .error .outOfBounds

/-- The loops that copy while `buf < bufend`. -/
def putLoop : List Byte → Sink → Except Fault Sink
  | [], out => .ok out
  | c :: cs, out => if 0 < out.room then do putLoop cs (← out.put c) else .ok out

/-! ## Numbers -/

def xdigitmap : List Byte :=
  [48, 49, 50, 51, 52, 53, 54, 55, 56, 57, 97, 98, 99, 100, 101, 102]

def upperXdigitmap : List Byte :=
  [48, 49, 50, 51, 52, 53, 54, 55, 56, 57, 65, 66, 67, 68, 69, 70]

def digitmap (upper : Bool) : List Byte := if upper then upperXdigitmap else xdigitmap

/-- The bytes of `revnum` and `revhex`. -/
def scratch : Nat := 32

/-- `rev[idx++] = c` -/
def push (rev : List Byte) (c : Byte) : Except Fault (List Byte) :=
  if rev.length < scratch then .ok (rev ++ [c]) else .error .outOfBounds

/-- `do { rev[idx++] = map[val % base]; val = val / base; } while (val != 0)` -/
def digitLoop (map : List Byte) (base : Nat) : Nat → List Byte → Nat → Except Fault (List Byte)
  | 0, _, _ => .error .hang
  | fuel + 1, rev, val => do
    let rev ← push rev (map.getD (val % base) 0)
    if val / base ≠ 0 then digitLoop map base fuel rev (val / base) else return rev

structure Field where
  zeropad : Bool
  minus : Bool
  minw : Int
  deriving DecidableEq

def Field.fill (f : Field) : Byte := if f.zeropad then 48 else 32

/-- `pad = idx < minw ? minw-idx : 0` -/
def Field.pad (f : Field) (idx : Nat) : Nat :=
  if (idx : Int) < f.minw then (f.minw - idx).toNat else 0

/-- `memmove` and `memset` of the scratch array. -/
def padRev (rev : List Byte) (f : Field) : Except Fault (List Byte) :=
  if rev.length + f.pad rev.length ≤ scratch then
    .ok (if f.minus then List.replicate (f.pad rev.length) f.fill ++ rev
      else rev ++ List.replicate (f.pad rev.length) f.fill)
  else .error .outOfBounds

/-- The end of the four functions for numbers: pad, and print backwards. -/
def fmtRev (out : Sink) (rev : List Byte) (f : Field) : Except Fault Sink := do
  putLoop (← padRev rev f).reverse out

/-- The sign that `fmt_d` finds, and the `uval` it goes on with. -/
def signOf (val : BitVec 64) (is64 : Bool) : Bool × Nat :=
  if !is64 ∧ (val.setWidth 32).toInt < 0 then (true, ((-val).setWidth 32).toNat)
  else if is64 ∧ val.toInt < 0 then (true, (-val).toNat)
  else (false, val.toNat)

def fmtD (out : Sink) (val : BitVec 64) (f : Field) (is64 : Bool) : Except Fault Sink := do
  let rev ← digitLoop xdigitmap 10 64 [] (signOf val is64).2
  let rev ← if (signOf val is64).1 then push rev 45 else pure rev
  fmtRev out rev f

/-- `is_64` is not used. -/
def fmtU (out : Sink) (val : BitVec 64) (f : Field) : Except Fault Sink := do
  fmtRev out (← digitLoop xdigitmap 10 64 [] val.toNat) f

def fmtX (out : Sink) (val : BitVec 32) (f : Field) (isUpper : Bool) : Except Fault Sink := do
  fmtRev out (← digitLoop (digitmap isUpper) 16 64 [] val.toNat) f

def fmtLx (out : Sink) (val : BitVec 64) (f : Field) (isUpper : Bool) : Except Fault Sink := do
  fmtRev out (← digitLoop (digitmap isUpper) 16 64 [] val.toNat) f

/-- The first two bytes are written without a look at `bufend`. -/
def fmtP (out : Sink) (val : BitVec 64) : Except Fault Sink := do
  let out ← out.put 48
  let out ← out.put 120
  putLoop (← digitLoop xdigitmap 16 64 [] val.toNat).reverse out

/-- `pad = len < minw ? minw-len : 0`, compared and subtracted in `size_t`. -/
def padS (len : Nat) (minw : Int) : Nat := if len < u64 minw then (i32 (minw - len)).toNat else 0

def fmtS (out : Sink) (s : CString) (f : Field) : Except Fault Sink :=
  if s.chars = [] then .error (.assertion .fmtS)
  else if f.minus then do
    putLoop (List.replicate (padS s.chars.length f.minw) 32) (← putLoop s.chars out)
  else do
    putLoop s.chars (← putLoop (List.replicate (padS s.chars.length f.minw) 32) out)

/-! ## The format -/

/-- The conversions for numbers, in the order of the source: `ld`, `lx`, `lX`, `lu`, `d`, `u`,
`x`, `X`. -/
inductive NumConv
  | ld
  | lx
  | lUpperX
  | lu
  | d
  | u
  | x
  | upperX
  deriving DecidableEq, Repr

/-- What one turn of the loop prints. `skip` is a `%b`, or an `l` in front of a character that
means nothing; `longEnd` is an `l` in front of the NUL. -/
inductive Piece
  | lit (c : Byte)
  | char (v : BitVec 64)
  | num (k : NumConv) (f : Field) (v : BitVec 64)
  | ptr (v : BitVec 64)
  | str (f : Field) (s : CString)
  | skip
  | longEnd

/-- `for (;;)`: the flags, and the format behind them. -/
def flagLoop : List Byte → Bool → Bool → Bool × Bool × List Byte
  | [], zeropad, minus => (zeropad, minus, [])
  | c :: fmt, zeropad, minus =>
    if c = 48 then flagLoop fmt true minus
    else if c = 45 then flagLoop fmt zeropad true
    else (zeropad, minus, c :: fmt)

def widthLoop : List Byte → Int → Int × List Byte
  | [], minw => (minw, [])
  | c :: fmt, minw =>
    if 48 ≤ c.toNat ∧ c.toNat ≤ 57 then widthLoop fmt (i32 (minw * 10 + (c.toNat - 48)))
    else (minw, c :: fmt)

def field (fmt : List Byte) : Field × List Byte :=
  let (zeropad, minus, fmt) := flagLoop fmt false false
  let (minw, fmt) := widthLoop fmt 0
  (⟨zeropad, minus, minw⟩, fmt)

/-- A missing or different argument is read from where none was passed. -/
def vaWord : List Arg → Except Fault (BitVec 64 × List Arg)
  | .word v :: ap => .ok (v, ap)
  | _ => .error .wildAccess

def vaStr : List Arg → Except Fault (CString × List Arg)
  | .str s :: ap => .ok (s, ap)
  | _ => .error .wildAccess

abbrev Next := Piece × List Byte × List Arg

def numPiece (k : NumConv) (f : Field) (fmt : List Byte) (ap : List Arg) :
    Except Fault (Option Next) := do
  let (v, ap) ← vaWord ap
  return some (.num k f v, fmt, ap)

/-- Behind `l`. At the NUL nothing matches, and the loop goes on behind it. -/
def longPiece (f : Field) (fmt : List Byte) (ap : List Arg) : Except Fault (Option Next) :=
  match fmt with
  | [] => .ok (some (.longEnd, [], ap))
  | c :: fmt =>
    if c = 100 then numPiece .ld f fmt ap
    else if c = 120 then numPiece .lx f fmt ap
    else if c = 88 then numPiece .lUpperX f fmt ap
    else if c = 117 then numPiece .lu f fmt ap
    else .ok (some (.skip, fmt, ap))

/-- `switch(*fmt)`: the piece, the format behind it and the arguments left. `none` is the
`default:`, which ends the call. -/
def switchPiece (f : Field) (fmt : List Byte) (ap : List Arg) : Except Fault (Option Next) :=
  match fmt with
  | [] => .ok none
  | c :: fmt =>
    if c = 99 then do
      let (v, ap) ← vaWord ap
      return some (.char v, fmt, ap)
    else if c = 108 then longPiece f fmt ap
    else if c = 100 then numPiece .d f fmt ap
    else if c = 117 then numPiece .u f fmt ap
    else if c = 120 then numPiece .x f fmt ap
    else if c = 88 then numPiece .upperX f fmt ap
    else if c = 112 then do
      let (v, ap) ← vaWord ap
      return some (.ptr v, fmt, ap)
    else if c = 115 then do
      let (s, ap) ← vaStr ap
      return some (.str f s, fmt, ap)
    else if c = 98 then .ok (some (.skip, fmt, ap))
    else .ok none

/-- Behind `%`. -/
def nextPiece (fmt : List Byte) (ap : List Arg) : Except Fault (Option Next) :=
  let (f, fmt) := field fmt
  switchPiece f fmt ap

def fmtNum (out : Sink) (k : NumConv) (f : Field) (v : BitVec 64) : Except Fault Sink :=
  match k with
  | .ld => fmtD out v f true
  | .lx => fmtLx out v f false
  | .lUpperX => fmtLx out v f true
  | .lu => fmtU out v f
  | .d => fmtD out v f false
  | .u => fmtU out v f
  | .x => fmtX out (v.setWidth 32) f false
  | .upperX => fmtX out (v.setWidth 32) f true

def putPiece (out : Sink) : Piece → Except Fault Sink
  | .lit c => out.put c
  | .char v => out.put (v.setWidth 8)
  | .num k f v => fmtNum out k f v
  | .ptr v => fmtP out v
  | .str f s => fmtS out s f
  | .skip => .ok out
  -- nothing was written, so `buf < bufend` still holds and the character behind the NUL is read
  | .longEnd => .error .outOfBounds

def vsnprintfLoop : Nat → Sink → List Byte → List Arg → Except Fault Sink
  | 0, _, _, _ => .error .hang
  | _ + 1, out, [], _ => .ok out
  | fuel + 1, out, c :: fmt, ap =>
    if 0 < out.room then
      if c = 37 then do
        match ← nextPiece fmt ap with
        | none => return out
        | some (p, fmt, ap) => vsnprintfLoop fuel (← putPiece out p) fmt ap
      else do vsnprintfLoop fuel (← out.put c) fmt ap
    else .ok out

/-- The bytes written to `buf`, the NUL included, and the result. -/
def vsnprintf (size : Nat) (fmt : CString) (ap : List Arg) : Except Fault (List Byte × Int) := do
  let out ← vsnprintfLoop (fmt.chars.length + 1) ⟨size, []⟩ fmt.chars ap
  let buf ← out.put 0
  return (buf.text, i32 out.text.length)

/-! ## What is written -/

/-- As much of `t` as there is room for. -/
def Sink.add (out : Sink) (t : List Byte) : Sink := { out with text := out.text ++ t.take out.room }

variable {out : Sink}

theorem Sink.put_eq (h : 0 < out.room) (c : Byte) : out.put c = .ok (out.add [c]) := by
  have hlt : out.text.length < out.size := by
    unfold room at h
    omega
  rw [put, if_pos hlt, add, List.take_of_length_le h]

theorem Sink.room_add (out : Sink) (t : List Byte) : (out.add t).room = out.room - t.length := by
  simp only [room, add, List.length_append, List.length_take]
  omega

theorem Sink.add_add (out : Sink) (t t' : List Byte) : (out.add t).add t' = out.add (t ++ t') := by
  rw [add, room_add, add, add, List.take_append, List.append_assoc]

theorem Sink.add_nil (out : Sink) : out.add [] = out := by
  rw [add, List.take_nil, List.append_nil]

theorem Sink.add_of_full (h : out.room = 0) (t : List Byte) : out.add t = out := by
  rw [add, h, List.take_zero, List.append_nil]

theorem putLoop_eq (cs : List Byte) (out : Sink) : putLoop cs out = .ok (out.add cs) := by
  induction cs generalizing out with
  | nil => rw [putLoop, out.add_nil]
  | cons c cs ih =>
    rw [putLoop]
    split
    · rename_i hroom
      rw [out.put_eq hroom]
      exact (ih (out.add [c])).trans (congrArg Except.ok (out.add_add [c] cs))
    · rename_i hfull
      rw [out.add_of_full (Nat.eq_zero_of_not_pos hfull)]

/-! ## Numbers as texts -/

def revChars (map : List Byte) (base n : Nat) : List Byte :=
  (revDigits base n).map fun d => map.getD d 0

def digitChar (upper : Bool) (d : Nat) : Byte := (digitmap upper).getD d 0

theorem length_revChars (map : List Byte) (base n : Nat) :
    (revChars map base n).length = (revDigits base n).length :=
  List.length_map _

theorem digitLoop_eq (map : List Byte) {base : Nat} (hb : 2 ≤ base) {fuel n : Nat}
    {rev : List Byte} (hfuel : (revDigits base n).length ≤ fuel)
    (hroom : rev.length + (revDigits base n).length ≤ scratch) :
    digitLoop map base fuel rev n = .ok (rev ++ revChars map base n) := by
  induction fuel generalizing rev n with
  | zero =>
    have := length_revDigits_pos base n
    omega
  | succ fuel ih =>
    have hstep := revDigits_step hb n
    have hlen := congrArg List.length hstep
    rw [List.length_cons] at hlen
    have hpush : push rev (map.getD (n % base) 0) = .ok (rev ++ [map.getD (n % base) 0]) :=
      if_pos (by omega)
    have hdef : digitLoop map base (fuel + 1) rev n =
        if n / base ≠ 0 then digitLoop map base fuel (rev ++ [map.getD (n % base) 0]) (n / base)
        else .ok (rev ++ [map.getD (n % base) 0]) := by
      rw [digitLoop, hpush]
      rfl
    rw [hdef, revChars, hstep, List.map_cons]
    split
    · rename_i hmore
      rw [if_neg hmore] at hlen
      rw [ih (by omega) (by rw [List.length_append, List.length_singleton]; omega), revChars,
        List.append_assoc]
      rfl
    · rename_i hlast
      rw [if_pos (not_not.1 hlast)]
      rfl

@[ext] structure Number where
  neg : Bool
  base : Nat
  upper : Bool
  uval : Nat
  base_ok : base = 10 ∨ base = 16
  uval_lt : uval < 2 ^ 64

def Number.sign (n : Number) : List Byte := if n.neg then [45] else []

def Number.rev (n : Number) : List Byte := revChars (digitmap n.upper) n.base n.uval ++ n.sign

def Number.digits (n : Number) : List Nat := (revDigits n.base n.uval).reverse

theorem Number.length_sign_le (n : Number) : n.sign.length ≤ 1 := by
  rw [sign]
  split <;> decide

theorem Number.reverse_rev (n : Number) :
    n.rev.reverse = n.sign ++ n.digits.map (digitChar n.upper) := by
  have hsign : n.sign.reverse = n.sign := by
    rw [sign]
    split <;> rfl
  rw [rev, List.reverse_append, hsign, revChars, ← List.map_reverse]
  rfl

theorem Number.digits_lt (n : Number) : ∀ d ∈ n.digits, d < n.base := by
  intro d hd
  have hb := n.base_ok
  exact revDigits_lt (by omega) (List.mem_reverse.1 hd)

theorem Number.digits_value (n : Number) : n.digits.foldl (horner n.base) 0 = n.uval :=
  value_revDigits n.base n.uval

theorem Number.digits_cons (n : Number) : ∃ d ds, n.digits = d :: ds := by
  apply List.exists_cons_of_ne_nil
  rw [digits, Ne, List.reverse_eq_nil_iff]
  intro hnil
  have hpos := length_revDigits_pos n.base n.uval
  rw [hnil, List.length_nil] at hpos
  omega

theorem Number.length_digits_le (n : Number) : (revDigits n.base n.uval).length ≤ 20 := by
  have hlt := n.uval_lt
  rcases n.base_ok with hb | hb
  · rw [hb]
    exact length_revDigits_le (by decide) (by decide) (hlt.trans (by decide))
  · rw [hb]
    exact length_revDigits_le (by decide) (by decide) (hlt.trans (by decide))

theorem Number.length_rev_le (n : Number) : n.rev.length ≤ 21 := by
  have h := n.length_digits_le
  have hs := n.length_sign_le
  rw [rev, List.length_append, length_revChars]
  omega

theorem Number.digitLoop_eq (n : Number) :
    digitLoop (digitmap n.upper) n.base 64 [] n.uval =
      .ok (revChars (digitmap n.upper) n.base n.uval) := by
  have h := n.length_digits_le
  have hb : 2 ≤ n.base := by
    have := n.base_ok
    omega
  exact Print.digitLoop_eq _ hb (by omega) (by rw [List.length_nil, scratch]; omega)

theorem signOf_long (val : BitVec 64) :
    signOf val true = if val.toInt < 0 then (true, (-val).toNat) else (false, val.toNat) := by
  simp [signOf]

theorem signOf_int (val : BitVec 64) :
    signOf val false =
      if (val.setWidth 32).toInt < 0 then (true, ((-val).setWidth 32).toNat)
      else (false, val.toNat) := by
  simp [signOf]

theorem signOf_lt (val : BitVec 64) (is64 : Bool) : (signOf val is64).2 < 2 ^ 64 := by
  rw [signOf]
  split
  · have := ((-val).setWidth 32).isLt
    dsimp only
    omega
  · split
    · exact (-val).isLt
    · exact val.isLt

def numberOf (k : NumConv) (v : BitVec 64) : Number :=
  match k with
  | .ld => ⟨(signOf v true).1, 10, false, (signOf v true).2, .inl rfl, signOf_lt v true⟩
  | .lx => ⟨false, 16, false, v.toNat, .inr rfl, v.isLt⟩
  | .lUpperX => ⟨false, 16, true, v.toNat, .inr rfl, v.isLt⟩
  | .lu => ⟨false, 10, false, v.toNat, .inl rfl, v.isLt⟩
  | .d => ⟨(signOf v false).1, 10, false, (signOf v false).2, .inl rfl, signOf_lt v false⟩
  | .u => ⟨false, 10, false, v.toNat, .inl rfl, v.isLt⟩
  | .x => ⟨false, 16, false, (v.setWidth 32).toNat, .inr rfl,
      (v.setWidth 32).isLt.trans (by decide)⟩
  | .upperX => ⟨false, 16, true, (v.setWidth 32).toNat, .inr rfl,
      (v.setWidth 32).isLt.trans (by decide)⟩

/-- The text of a number: the array that `padRev` leaves, backwards. -/
def padText (rev : List Byte) (f : Field) : List Byte :=
  (if f.minus then List.replicate (f.pad rev.length) f.fill ++ rev
    else rev ++ List.replicate (f.pad rev.length) f.fill).reverse

theorem length_padText (rev : List Byte) (f : Field) :
    (padText rev f).length = rev.length + f.pad rev.length := by
  rw [padText, List.length_reverse]
  split
  · rw [List.length_append, List.length_replicate, Nat.add_comm]
  · rw [List.length_append, List.length_replicate]

theorem fmtRev_eq (out : Sink) (rev : List Byte) (f : Field) :
    fmtRev out rev f =
      if rev.length + f.pad rev.length ≤ scratch then .ok (out.add (padText rev f))
      else .error .outOfBounds := by
  rw [fmtRev, padRev]
  split
  · exact putLoop_eq _ out
  · rfl

theorem Number.pad_le_iff (n : Number) (f : Field) :
    n.rev.length + f.pad n.rev.length ≤ scratch ↔ f.minw ≤ 32 := by
  have h := n.length_rev_le
  rw [Field.pad, scratch]
  split <;> omega

theorem fmtUnsigned_eq (out : Sink) (n : Number) (hn : n.neg = false) (f : Field) :
    (do fmtRev out (← digitLoop (digitmap n.upper) n.base 64 [] n.uval) f) =
      fmtRev out n.rev f := by
  rw [n.digitLoop_eq, Number.rev, Number.sign, hn]
  exact congrArg (fmtRev out · f) (List.append_nil _).symm

theorem fmtSigned_eq (out : Sink) (n : Number) (f : Field) :
    (do
      let rev ← digitLoop (digitmap n.upper) n.base 64 [] n.uval
      let rev ← if n.neg then push rev 45 else pure rev
      fmtRev out rev f) = fmtRev out n.rev f := by
  cases hn : n.neg with
  | false => exact fmtUnsigned_eq out n hn f
  | true =>
    have hlen := n.length_digits_le
    rw [n.digitLoop_eq, Number.rev, Number.sign, hn]
    change (push (revChars _ _ _) 45 >>= fun rev => fmtRev out rev f) = _
    rw [push, if_pos (by rw [length_revChars, scratch]; omega)]
    rfl

/-- The four functions for numbers differ in the number they print. -/
theorem fmtNum_eq (out : Sink) (k : NumConv) (f : Field) (v : BitVec 64) :
    fmtNum out k f v = fmtRev out (numberOf k v).rev f := by
  cases k with
  | ld => exact fmtSigned_eq out (numberOf .ld v) f
  | d => exact fmtSigned_eq out (numberOf .d v) f
  | lx => exact fmtUnsigned_eq out (numberOf .lx v) rfl f
  | lUpperX => exact fmtUnsigned_eq out (numberOf .lUpperX v) rfl f
  | lu => exact fmtUnsigned_eq out (numberOf .lu v) rfl f
  | u => exact fmtUnsigned_eq out (numberOf .u v) rfl f
  | x => exact fmtUnsigned_eq out (numberOf .x v) rfl f
  | upperX => exact fmtUnsigned_eq out (numberOf .upperX v) rfl f

/-! ## Pieces -/

def textS (s : CString) (f : Field) : List Byte :=
  if f.minus then s.chars ++ List.replicate (padS s.chars.length f.minw) 32
  else List.replicate (padS s.chars.length f.minw) 32 ++ s.chars

def Piece.text : Piece → List Byte
  | .lit c => [c]
  | .char v => [v.setWidth 8]
  | .num k f v => padText (numberOf k v).rev f
  | .ptr v => [48, 120] ++ (numberOf .lx v).rev.reverse
  | .str f s => textS s f
  | .skip => []
  | .longEnd => []

/-- A piece that does not trip, with `room` bytes left in front of `bufend`. -/
def Piece.harmless (room : Nat) : Piece → Bool
  | .num _ f _ => f.minw ≤ 32
  | .ptr _ => 2 ≤ room
  | .str _ s => s.chars ≠ []
  | .longEnd => false
  | _ => true

theorem fmtS_eq (out : Sink) {s : CString} (hs : s.chars ≠ []) (f : Field) :
    fmtS out s f = .ok (out.add (textS s f)) := by
  rw [fmtS, if_neg hs, textS]
  split
  · rw [putLoop_eq]
    exact (putLoop_eq _ _).trans (congrArg Except.ok (out.add_add _ _))
  · rw [putLoop_eq]
    exact (putLoop_eq _ _).trans (congrArg Except.ok (out.add_add _ _))

theorem digitLoop_ptr (v : BitVec 64) :
    digitLoop xdigitmap 16 64 [] v.toNat = .ok (numberOf .lx v).rev :=
  (numberOf .lx v).digitLoop_eq.trans (congrArg Except.ok (List.append_nil _).symm)

theorem fmtP_eq (h : 2 ≤ out.room) (v : BitVec 64) :
    fmtP out v = .ok (out.add ([48, 120] ++ (numberOf .lx v).rev.reverse)) := by
  have hsecond : 0 < (out.add [48]).room := by
    rw [out.room_add, List.length_singleton]
    omega
  rw [fmtP, out.put_eq (by omega)]
  change (do
    let out ← (out.add [48]).put 120
    putLoop (← digitLoop xdigitmap 16 64 [] v.toNat).reverse out) = _
  rw [Sink.put_eq hsecond, digitLoop_ptr, out.add_add]
  exact (putLoop_eq _ _).trans (congrArg Except.ok (out.add_add _ _))

/-- With one byte left in front of `bufend`, both bytes of `0x` still go into the buffer. -/
theorem fmtP_full (h : out.room = 1) (v : BitVec 64) :
    fmtP out v = .ok { out with text := out.text ++ [48] ++ [120] } := by
  have hlen : out.text.length + 2 = out.size := by
    unfold Sink.room at h
    omega
  have hfirst : out.put 48 = .ok { out with text := out.text ++ [48] } := if_pos (by omega)
  have hsecond : Sink.put { out with text := out.text ++ [48] } 120 =
      .ok { out with text := out.text ++ [48] ++ [120] } := by
    rw [Sink.put, if_pos (by simp; omega)]
  rw [fmtP, hfirst]
  change (do
    let out ← Sink.put { out with text := out.text ++ [48] } 120
    putLoop (← digitLoop xdigitmap 16 64 [] v.toNat).reverse out) = _
  rw [hsecond, digitLoop_ptr]
  refine (putLoop_eq _ _).trans (congrArg Except.ok (Sink.add_of_full ?_ _))
  simp only [Sink.room, List.length_append, List.length_singleton]
  omega

theorem putPiece_eq (hroom : 0 < out.room) {p : Piece} (hp : p.harmless out.room = true) :
    putPiece out p = .ok (out.add p.text) := by
  cases p with
  | lit c => exact out.put_eq hroom c
  | char v => exact out.put_eq hroom _
  | num k f v =>
    have hw : f.minw ≤ 32 := of_decide_eq_true hp
    rw [putPiece, fmtNum_eq, fmtRev_eq, if_pos ((Number.pad_le_iff _ f).2 hw)]
    rfl
  | ptr v => exact fmtP_eq (of_decide_eq_true hp) v
  | str f s => exact fmtS_eq out (of_decide_eq_true hp) f
  | skip => exact congrArg Except.ok out.add_nil.symm
  | longEnd => cases hp

/-- A piece that trips stops the call, or leaves no byte for the NUL. -/
theorem putPiece_trips {out' : Sink} (hroom : 0 < out.room) {p : Piece}
    (hp : p.harmless out.room = false) (h : putPiece out p = .ok out') :
    out'.room = 0 ∧ out'.size ≤ out'.text.length := by
  cases p with
  | lit c => cases hp
  | char v => cases hp
  | num k f v =>
    have hw : ¬ f.minw ≤ 32 := of_decide_eq_false hp
    rw [putPiece, fmtNum_eq, fmtRev_eq, if_neg (mt (Number.pad_le_iff _ f).1 hw)] at h
    cases h
  | ptr v =>
    have hone : ¬ 2 ≤ out.room := of_decide_eq_false hp
    have hlast : out.room = 1 := by omega
    rw [putPiece, fmtP_full hlast] at h
    cases h
    unfold Sink.room at hlast
    simp only [Sink.room, List.length_append, List.length_singleton]
    omega
  | str f s =>
    have hs : s.chars = [] := not_not.1 (of_decide_eq_false hp)
    rw [putPiece, fmtS, if_pos hs] at h
    cases h
  | skip => cases hp
  | longEnd => cases h

/-- The pieces one after another, while there is room. -/
def putPieces : Sink → List Piece → Except Fault Sink
  | out, [] => .ok out
  | out, p :: ps => if 0 < out.room then do putPieces (← putPiece out p) ps else .ok out

def clean : Nat → List Piece → Bool
  | _, [] => true
  | room, p :: ps => room = 0 || p.harmless room && clean (room - p.text.length) ps

theorem putPieces_of_clean {ps : List Piece} (h : clean out.room ps = true) :
    putPieces out ps = .ok (out.add (ps.flatMap Piece.text)) := by
  induction ps generalizing out with
  | nil => rw [putPieces, List.flatMap_nil, out.add_nil]
  | cons p ps ih =>
    rw [putPieces]
    split
    · rename_i hroom
      rw [clean, Bool.or_eq_true, Bool.and_eq_true] at h
      have ⟨hp, hrest⟩ := h.resolve_left (by simp; omega)
      rw [putPiece_eq hroom hp]
      rw [← out.room_add] at hrest
      exact (ih hrest).trans (congrArg Except.ok (out.add_add _ _))
    · rename_i hfull
      rw [out.add_of_full (Nat.eq_zero_of_not_pos hfull)]

theorem putPieces_full (h : out.room = 0) (ps : List Piece) : putPieces out ps = .ok out := by
  cases ps with
  | nil => rfl
  | cons p ps => rw [putPieces, if_neg (by omega)]

theorem putPieces_trips {out' : Sink} {ps : List Piece} (h : clean out.room ps = false)
    (hrun : putPieces out ps = .ok out') : out'.size ≤ out'.text.length := by
  induction ps generalizing out with
  | nil => cases h
  | cons p ps ih =>
    rw [clean, Bool.or_eq_false_iff, decide_eq_false_iff_not, Bool.and_eq_false_iff] at h
    have hroom : 0 < out.room := Nat.pos_of_ne_zero h.1
    rw [putPieces, if_pos hroom] at hrun
    cases hp : p.harmless out.room with
    | true =>
      have hrest := h.2.resolve_left (by rw [hp]; decide)
      rw [putPiece_eq hroom hp] at hrun
      rw [← out.room_add] at hrest
      exact ih hrest hrun
    | false =>
      cases hput : putPiece out p with
      | error e =>
        rw [hput] at hrun
        cases hrun
      | ok mid =>
        obtain ⟨hfull, hlen⟩ := putPiece_trips hroom hp hput
        rw [hput] at hrun
        have hmid : putPieces mid ps = .ok out' := hrun
        rw [putPieces_full hfull] at hmid
        cases hmid
        exact hlen

end SpringOs.Print
