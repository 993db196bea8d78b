import SpringOs.Functrace
import SpringOs.PrintSafe

/-!
The argument string of a traced call. `ftrace_end` and `functrace` build it with the same
statements: the arguments are read from the frame of the caller and printed one behind the other
into `argstr`, an array of 64 characters. `sprintf` does not know how much of it is left, and the
length is tested only after it has written.

* **`argLoop`**, **`argString`**: the loop and what stands around it;
* `rendering`: the arguments in decimal, with commas between them;
* `argLoop_eq`: the loop writes the rendering if it fits, and past the array otherwise;
* `argstr_right_iff`: so the string is right exactly if there are arguments and each of them
  finds room together with one more character.
-/

namespace SpringOs.Functrace
open Kernel Lib.Word Lib.Bytes Lib.Numeral Print

/-! ## The string -/

/-- `nelem(argstr)`. -/
def argstrSize : Nat := 64

theorem ldFormat_no_nul : (0 : Byte) ∉ [37, 108, 100] := by decide

/-- The format `%ld`. -/
def ldFormat : CString := ⟨[37, 108, 100], ldFormat_no_nul⟩

/-- `sprintf` passes on a size of its own. -/
def sprintf (fmt : CString) (ap : List Arg) : Except Fault (List Byte × Int) :=
  vsnprintf 256 fmt ap

/-- The text `void`, of a function without parameters. -/
def voidText : List Byte := [118, 111, 105, 100]

/-- The rounds for the arguments that are left; `text` stands in front of `argslen`. -/
def argLoop : List (BitVec 64) → List Byte → Except Fault (List Byte)
  | [], text => .ok text
  | v :: rest, text => do
    let (out, n) ← sprintf ldFormat [.word v]
    if argstrSize < text.length + out.length then .error .outOfBounds
    else
      let text := text ++ out.take n.toNat
      -- "Arguments too long": nothing is left to be terminated inside the array
      if argstrSize ≤ text.length then .ok text
      else if rest = [] then argLoop rest text
      else argLoop rest (text ++ [44])

/-- What the debug information says about a parameter: where it stands below or above the frame
pointer of the caller, and how many bytes it has. -/
structure Param where
  argoff : Int
  argsize : Int
  deriving DecidableEq, Repr

/-- A traced call: `dgbinfo_get_func_param` found `params`, `fp` is the frame pointer that is
handed over, and `argv` is what the memory from `kalloc` holds. -/
structure CallFrame where
  params : List Param
  fp : Nat
  mem : Nat → Byte
  argv : Nat → BitVec 64

/-- The number in `n` bytes of memory. -/
def CallFrame.load (c : CallFrame) (addr n : Nat) : Nat := ofBytes (fun i => c.mem (addr + i)) n

def CallFrame.callerfp (c : CallFrame) : Nat := c.load c.fp 8

/-- `argv[i]`, which keeps what it held for a parameter of another size. -/
def CallFrame.arg (c : CallFrame) (i : Nat) (p : Param) : BitVec 64 :=
  let addr := u64 (c.callerfp + p.argoff)
  if p.argsize = 1 then .ofNat 64 (c.load addr 1)
  else if p.argsize = 2 then .ofNat 64 (c.load addr 2)
  else if p.argsize = 4 then .ofNat 64 (c.load addr 4)
  else if p.argsize = 8 then .ofNat 64 (c.load addr 8)
  else c.argv i

def CallFrame.args (c : CallFrame) : List (BitVec 64) := c.params.mapIdx c.arg

/-- What stands in `argstr` in front of its end. -/
def argString (fn : Fn) (c : CallFrame) : Except Fault (List Byte) :=
  if 8 < c.params.length then .error (.assertion fn)
  else if c.params = [] then .ok voidText
  else if c.callerfp ≤ c.fp then .error (.assertion fn)
  else do
    let text ← argLoop c.args []
    if text.length < argstrSize then .ok text else .error .outOfBounds

def ftraceEndArgstr (c : CallFrame) : Except Fault (List Byte) := argString .ftraceEnd c

def functraceArgstr (c : CallFrame) : Except Fault (List Byte) := argString .functrace c

/-! ## What is printed -/

def decimal (v : BitVec 64) : List Byte :=
  (if v.toInt < 0 then [45] else []) ++
    (revDigits 10 v.toInt.natAbs).reverse.map (digitChar false)

def rendering (args : List (BitVec 64)) : List Byte := [44].intercalate (args.map decimal)

/-- The characters of the arguments, and one behind each of them. -/
def room (args : List (BitVec 64)) : Nat := (args.map fun v => (decimal v).length + 1).sum

theorem rendering_singleton (v : BitVec 64) : rendering [v] = decimal v := by
  simp [rendering, List.intercalate]

theorem rendering_cons {args : List (BitVec 64)} (h : args ≠ []) (v : BitVec 64) :
    rendering (v :: args) = decimal v ++ 44 :: rendering args := by
  obtain ⟨w, rest, rfl⟩ := List.exists_cons_of_ne_nil h
  rfl

theorem length_rendering {args : List (BitVec 64)} (h : args ≠ []) :
    (rendering args).length + 1 = room args := by
  induction args with
  | nil => exact absurd rfl h
  | cons v args ih =>
    by_cases hlast : args = []
    · subst hlast
      simp [rendering_singleton, room]
    · rw [rendering_cons hlast, List.length_append, List.length_cons, ih hlast]
      simp only [room, List.map_cons, List.sum_cons]
      omega

theorem signOf_natAbs (v : BitVec 64) :
    signOf v true = (decide (v.toInt < 0), v.toInt.natAbs) := by
  have hv := v.isLt
  rw [signOf_long]
  by_cases hneg : v.toInt < 0
  · rw [if_pos hneg, decide_eq_true hneg, BitVec.toNat_neg]
    rw [BitVec.toInt_eq_toNat_cond] at hneg ⊢
    congr 1
    split at hneg <;> omega
  · rw [if_neg hneg, decide_eq_false hneg]
    rw [BitVec.toInt_eq_toNat_cond] at hneg ⊢
    congr 1
    split at hneg <;> omega

theorem number_decimal (v : BitVec 64) : (numberOf .ld v).rev.reverse = decimal v := by
  have hneg : (numberOf .ld v).neg = decide (v.toInt < 0) := congrArg Prod.fst (signOf_natAbs v)
  have huval : (numberOf .ld v).uval = v.toInt.natAbs := congrArg Prod.snd (signOf_natAbs v)
  rw [Number.reverse_rev, Number.sign, Number.digits, huval, hneg]
  simp only [decide_eq_true_eq]
  rfl

theorem length_decimal_le (v : BitVec 64) : (decimal v).length ≤ 21 := by
  rw [← number_decimal, List.length_reverse]
  exact (numberOf .ld v).length_rev_le

theorem sprintf_ld (v : BitVec 64) :
    sprintf ldFormat [.word v] = .ok (decimal v ++ [0], (decimal v).length) := by
  have hlen := length_decimal_le v
  have hpieces : pieces ldFormat [.word v] = .ok [.num .ld ⟨false, false, 0⟩ v] := rfl
  have htext : [Piece.num .ld ⟨false, false, 0⟩ v].flatMap Piece.text = decimal v := by
    have hpad : Field.pad ⟨false, false, 0⟩ (numberOf .ld v).rev.length = 0 :=
      if_neg (Int.not_lt.2 (Int.natCast_nonneg _))
    rw [List.flatMap_singleton, Piece.text, padText, if_neg Bool.false_ne_true, hpad,
      List.replicate_zero, List.append_nil, number_decimal]
  have hcount : i32 (decimal v).length = (decimal v).length := i32_of_lt (by omega) (by omega)
  rw [sprintf, vsnprintf_eq (by decide) hpieces rfl, htext, List.take_of_length_le (by omega),
    hcount]

/-- **The loop**: the arguments are written as a whole, or past the array. -/
theorem argLoop_eq {args : List (BitVec 64)} (h : args ≠ []) (text : List Byte) :
    argLoop args text =
      if text.length + room args ≤ argstrSize then .ok (text ++ rendering args)
      else .error .outOfBounds := by
  induction args generalizing text with
  | nil => exact absurd rfl h
  | cons v args ih =>
    have hroom : room (v :: args) = (decimal v).length + 1 + room args := List.sum_cons
    rw [argLoop, sprintf_ld]
    change (if _ then _ else _) = _
    rw [List.length_append, List.length_singleton, Int.toNat_natCast, List.take_left]
    by_cases hfits : argstrSize < text.length + ((decimal v).length + 1)
    · rw [if_pos hfits, if_neg (by omega)]
    · have hshort : ¬ argstrSize ≤ (text ++ decimal v).length := by
        rw [List.length_append]
        omega
      rw [if_neg hfits, if_neg hshort]
      by_cases hlast : args = []
      · subst hlast
        rw [if_pos rfl, argLoop, if_pos (by rw [hroom]; exact Nat.le_of_not_lt hfits),
          rendering_singleton]
      · rw [if_neg hlast, ih hlast, rendering_cons hlast, hroom]
        simp only [List.length_append, List.length_singleton, List.append_assoc,
          List.singleton_append, Nat.add_assoc]

theorem argString_eq (fn : Fn) {c : CallFrame} (hargc : c.params.length ≤ 8)
    (hfp : c.fp < c.callerfp) (hargs : c.params ≠ []) :
    argString fn c =
      if room c.args ≤ argstrSize then .ok (rendering c.args) else .error .outOfBounds := by
  have hne : c.args ≠ [] := by rwa [CallFrame.args, Ne, List.mapIdx_eq_nil_iff]
  have hlen := length_rendering hne
  rw [argString, if_neg (Nat.not_lt.2 hargc), if_neg hargs, if_neg (Nat.not_le.2 hfp),
    argLoop_eq hne, List.length_nil, Nat.zero_add, List.nil_append]
  by_cases hroom : room c.args ≤ argstrSize
  · rw [if_pos hroom]
    exact if_pos (by omega)
  · rw [if_neg hroom]
    rfl

theorem argString_void (fn : Fn) {c : CallFrame} (h : c.params = []) :
    argString fn c = .ok voidText := by
  rw [argString, h, if_neg (by decide), if_pos rfl]

/-! ## The string is right -/

/-- Nothing is written outside `argstr`, and what stands there is the rendering of the
arguments, or of the first few of them. -/
def Rendered (args : List (BitVec 64)) (r : Except Fault (List Byte)) : Prop :=
  ∃ k ≤ args.length, r = .ok (rendering (args.take k))

theorem rendered_iff (fn : Fn) {c : CallFrame} (hargc : c.params.length ≤ 8)
    (hfp : c.fp < c.callerfp) :
    Rendered c.args (argString fn c) ↔ c.params ≠ [] ∧ room c.args ≤ argstrSize := by
  by_cases hargs : c.params = []
  · rw [argString_void fn hargs, CallFrame.args, hargs]
    refine ⟨fun ⟨k, hk, htext⟩ => ?_, fun h => absurd rfl h.1⟩
    rw [List.mapIdx_nil, List.take_nil] at htext
    exact absurd (Except.ok.inj htext) (by decide)
  · rw [argString_eq fn hargc hfp hargs]
    refine ⟨fun ⟨k, hk, htext⟩ => ⟨hargs, ?_⟩, fun ⟨_, hroom⟩ => ⟨c.args.length, le_rfl, ?_⟩⟩
    · by_contra hroom
      rw [if_neg hroom] at htext
      cases htext
    · rw [if_pos hroom, List.take_length]

/-- **The argument string** of both functions is right exactly if there is an argument and the
arguments, each with one more character behind it, fit into `argstr`. A function without
parameters gets the text `void`. -/
theorem argstr_right_iff (c : CallFrame) (hargc : c.params.length ≤ 8) (hfp : c.fp < c.callerfp) :
    (Rendered c.args (ftraceEndArgstr c) ↔ c.params ≠ [] ∧ room c.args ≤ argstrSize) ∧
    (Rendered c.args (functraceArgstr c) ↔ c.params ≠ [] ∧ room c.args ≤ argstrSize) ∧
    (c.params = [] → ftraceEndArgstr c = .ok voidText ∧ functraceArgstr c = .ok voidText) :=
  ⟨rendered_iff .ftraceEnd hargc hfp, rendered_iff .functrace hargc hfp,
    fun h => ⟨argString_void .ftraceEnd h, argString_void .functrace h⟩⟩

/-- A frame at address 0, with the frame pointer 16 of the caller and `n` parameters of eight
bytes. Every parameter has the value whose highest byte is `b`. -/
def frameOf (n : Nat) (b : Byte) : CallFrame where
  params := List.replicate n ⟨8, 8⟩
  fp := 0
  mem := fun a => if a = 0 then 16 else if a = 31 then b else 0
  argv := fun _ => 0

theorem argstr_right_three :
    Rendered (frameOf 3 0).args (ftraceEndArgstr (frameOf 3 0)) ∧
      Rendered (frameOf 3 0).args (functraceArgstr (frameOf 3 0)) := by
  have h := argstr_right_iff (frameOf 3 0) (by decide) (by decide)
  have hroom : (frameOf 3 0).params ≠ [] ∧ room (frameOf 3 0).args ≤ argstrSize := by
    decide +kernel
  exact ⟨h.1.2 hroom, h.2.1.2 hroom⟩

/-- Four numbers of 20 characters run past `argstr`. -/
theorem argstr_overflow :
    ftraceEndArgstr (frameOf 4 0x80) = .error .outOfBounds ∧
      functraceArgstr (frameOf 4 0x80) = .error .outOfBounds := by
  decide +kernel

end SpringOs.Functrace
