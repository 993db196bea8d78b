import SpringOs.Lib.ArmExclusive

/-!
`atomic.h` and `bitops.S` on several processors, instruction by instruction.

The functions of `atomic.h` are inline assembler: operand `%i` is register `i` here, and what
the other registers hold does not matter. `atomic_read` and `atomic_set` are plain accesses,
and so are the other loads and stores of a C program that uses these functions. Barriers order
nothing more here, since accesses take effect in program order.

* `addLike`, `bitop`, `testop`: the families of functions that differ in one instruction;
* `implements`: each function repeats an exclusive load and store, and updates as `spec` says;
* **`atomic_calls`**: programs on any number of processors that call these functions, in any
  interleaving of their instructions, behave as if each call were one step.
-/

namespace SpringOs.Atomic
open Lib.Arm Lib.Exclusive Lib.ArmExclusive Lib.Machine

/-! ## `atomic.h` -/

/-- `ldxr`, one instruction, `stxr`, and again while the store fails. -/
def addLike (op : Alu) (rest : List Instr) : List Instr := [
  -- 1:
  .ldxr (.x 0) (.x 2),
  .alu .w op (.x 0) (.x 0) (.reg (.x 3)),
  .stxr (.x 1) (.x 0) (.x 2),
  .cbnz .w (.x 1) 0] ++ rest

def atomicAdd : List Instr := addLike .add []
def atomicAddReturn : List Instr := addLike .add []
def atomicAddReturnOld : List Instr := addLike .add [.alu .w .sub (.x 0) (.x 0) (.reg (.x 3))]
def atomicSub : List Instr := addLike .sub []
def atomicSubReturn : List Instr := addLike .sub []
def atomicSubReturnOld : List Instr := addLike .sub [.alu .w .add (.x 0) (.x 0) (.reg (.x 3))]

def atomicCmpxchg : List Instr := [
  -- 1:
  .ldxr (.x 1) (.x 2),
  .cmp .w (.x 1) (.reg (.x 3)),
  .bc .ne 5,
  .stxr (.x 0) (.x 4) (.x 2),
  .cbnz .w (.x 0) 0]
  -- 2:

def atomicIncIfPostive : List Instr := [
  -- 1:
  .ldxr (.x 1) (.x 2),
  .cmp .w (.x 1) (.imm 0),
  .bc .lt 6,
  .alu .w .add (.x 3) (.x 1) (.imm 1),
  .stxr (.x 0) (.x 3) (.x 2),
  .cbnz .w (.x 0) 0]
  -- 2:

def atomicDecSetNegtiveIfZero : List Instr := [
  -- 1:
  .ldxr (.x 1) (.x 2),
  .cmp .w (.x 1) (.imm 0),
  .bc .le 9,
  .alu .w .sub (.x 3) (.x 1) (.imm 1),
  .cmp .w (.x 3) (.imm 0),
  .bc .ne 7,
  .alu .w .sub (.x 3) (.x 3) (.imm 1),
  -- 3:
  .stxr (.x 0) (.x 3) (.x 2),
  .cbnz .w (.x 0) 0]
  -- 2:

/-! ## `bitops.S` -/

def bitop (instr : Alu) : List Instr := [
  .alu .w .and (.x 3) (.x 0) (.imm 31),
  .alu .w .eor (.x 0) (.x 0) (.reg (.x 3)),
  .mov .x (.x 2) (.imm 1),
  .alu .x .add (.x 1) (.x 1) (.lsr (.x 0) 3),
  .alu .x .lsl (.x 3) (.x 2) (.reg (.x 3)),
  -- 1:
  .ldxr (.x 2) (.x 1),
  .alu .w instr (.x 2) (.x 2) (.reg (.x 3)),
  .stxr (.x 0) (.x 2) (.x 1),
  .cbnz .w (.x 0) 5,
  .ret]

def testop (instr : Alu) : List Instr := [
  .alu .w .and (.x 3) (.x 0) (.imm 31),
  .alu .w .eor (.x 0) (.x 0) (.reg (.x 3)),
  .mov .x (.x 2) (.imm 1),
  .alu .x .add (.x 1) (.x 1) (.lsr (.x 0) 3),
  .alu .x .lsl (.x 4) (.x 2) (.reg (.x 3)),
  -- 1:
  .ldxr (.x 2) (.x 1),
  .alu .w .lsr (.x 0) (.x 2) (.reg (.x 3)),
  .alu .w instr (.x 2) (.x 2) (.reg (.x 4)),
  .stxr (.x 5) (.x 2) (.x 1),
  .cbnz .w (.x 5) 5,
  .dmb,
  .alu .w .and (.x 0) (.x 0) (.imm 1),
  -- 3:
  .ret]

def changeBit : List Instr := bitop .eor
def clearBit : List Instr := bitop .bic
def setBit : List Instr := bitop .orr
def testAndChangeBit : List Instr := testop .eor
def testAndClearBit : List Instr := testop .bic
def testAndSetBit : List Instr := testop .orr

def testBit : List Instr := [
  .alu .w .and (.x 3) (.x 0) (.imm 31),
  .alu .w .eor (.x 0) (.x 0) (.reg (.x 3)),
  .alu .x .add (.x 1) (.x 1) (.lsr (.x 0) 3),
  -- 1:
  .ldxr (.x 2) (.x 1),
  .alu .w .lsr (.x 0) (.x 2) (.reg (.x 3)),
  .alu .w .and (.x 0) (.x 0) (.imm 1),
  .ret]

/-! ## Calls -/

abbrev CInt := BitVec 32

/-- A call with its arguments. `load` and `store` are accesses to objects that are no
`atomic_t`. -/
inductive Op
  | load (p : Word)
  | store (p v : Word)
  | atomicRead (t : Word)
  | atomicSet (t : Word) (i : CInt)
  | atomicAdd (v : Word) (i : CInt)
  | atomicAddReturn (v : Word) (i : CInt)
  | atomicAddReturnOld (v : Word) (i : CInt)
  | atomicSub (v : Word) (i : CInt)
  | atomicSubReturn (v : Word) (i : CInt)
  | atomicSubReturnOld (v : Word) (i : CInt)
  | atomicCmpxchg (t : Word) (old new : CInt)
  | atomicIncIfPostive (t : Word)
  | atomicDecSetNegtiveIfZero (t : Word)
  | changeBit (nr : CInt) (p : Word)
  | clearBit (nr : CInt) (p : Word)
  | setBit (nr : CInt) (p : Word)
  | testAndChangeBit (nr : CInt) (p : Word)
  | testAndClearBit (nr : CInt) (p : Word)
  | testAndSetBit (nr : CInt) (p : Word)
  | testBit (nr : CInt) (p : Word)

/-- An `int` in a register. -/
def wide (v : CInt) : Word := v.setWidth 64

def operands (s : Core) (v : Word) (i j : CInt) : Core :=
  ((s.set (.x 2) v).set (.x 3) (wide i)).set (.x 4) (wide j)

def arguments (s : Core) (nr : CInt) (p : Word) : Core :=
  (s.set (.x 0) (wide nr)).set (.x 1) p

/-- The `int` a function returns, from the register it is in; `none` for no result. -/
def returned (i : Option (Fin 31)) (s : Core) : Word :=
  match i with
  | none => 0
  | some i => low (s.x i)

/-- The code of a call. `s` is what the registers held before. -/
def impl (s : Core) : Op → Impl
  | .load p => .load p
  | .store p v => .store p v
  | .atomicRead t => .load t
  | .atomicSet t i => .store t (wide i)
  | .atomicAdd v i => .routine ⟨Atomic.atomicAdd, operands s v i 0, returned none⟩
  | .atomicAddReturn v i => .routine ⟨Atomic.atomicAddReturn, operands s v i 0, returned (some 0)⟩
  | .atomicAddReturnOld v i =>
    .routine ⟨Atomic.atomicAddReturnOld, operands s v i 0, returned (some 0)⟩
  | .atomicSub v i => .routine ⟨Atomic.atomicSub, operands s v i 0, returned none⟩
  | .atomicSubReturn v i => .routine ⟨Atomic.atomicSubReturn, operands s v i 0, returned (some 0)⟩
  | .atomicSubReturnOld v i =>
    .routine ⟨Atomic.atomicSubReturnOld, operands s v i 0, returned (some 0)⟩
  | .atomicCmpxchg t old new =>
    .routine ⟨Atomic.atomicCmpxchg, operands s t old new, returned (some 1)⟩
  | .atomicIncIfPostive t =>
    .routine ⟨Atomic.atomicIncIfPostive, operands s t 0 0, returned (some 1)⟩
  | .atomicDecSetNegtiveIfZero t =>
    .routine ⟨Atomic.atomicDecSetNegtiveIfZero, operands s t 0 0, returned (some 1)⟩
  | .changeBit nr p => .routine ⟨Atomic.changeBit, arguments s nr p, returned none⟩
  | .clearBit nr p => .routine ⟨Atomic.clearBit, arguments s nr p, returned none⟩
  | .setBit nr p => .routine ⟨Atomic.setBit, arguments s nr p, returned none⟩
  | .testAndChangeBit nr p =>
    .routine ⟨Atomic.testAndChangeBit, arguments s nr p, returned (some 0)⟩
  | .testAndClearBit nr p =>
    .routine ⟨Atomic.testAndClearBit, arguments s nr p, returned (some 0)⟩
  | .testAndSetBit nr p => .routine ⟨Atomic.testAndSetBit, arguments s nr p, returned (some 0)⟩
  | .testBit nr p => .routine ⟨Atomic.testBit, arguments s nr p, returned (some 0)⟩

/-! ## What the calls are for -/

/-- The value as an `int`. -/
def narrow (v : Word) : CInt := v.setWidth 32

/-- The word of a bit map that has bit `nr`. -/
def bitWord (nr : CInt) (p : Word) : Word := p + wide (nr / 32 * 4)

def bitMask (nr : CInt) : CInt := 1#32 <<< (nr % 32).toNat

def bitOf (nr : CInt) (v : CInt) : CInt := v >>> (nr % 32).toNat &&& 1

/-- What `atomic_dec_set_negtive_if_zero` makes of a positive value: never 0. -/
def decremented (v : CInt) : CInt := if v = 1 then -1 else v - 1

/-- A change of an `int`, and what is returned of the old value. -/
def update (f g : CInt → CInt) (v : Word) : Word × Word :=
  (wide (f (narrow v)), wide (g (narrow v)))

def spec : Op → Spec
  | .load p => (p, fun v => (v, v))
  | .store p v => (p, fun _ => (v, 0))
  | .atomicRead t => (t, fun v => (v, v))
  | .atomicSet t i => (t, fun _ => (wide i, 0))
  | .atomicAdd v i => (v, update (· + i) fun _ => 0)
  | .atomicAddReturn v i => (v, update (· + i) (· + i))
  | .atomicAddReturnOld v i => (v, update (· + i) id)
  | .atomicSub v i => (v, update (· - i) fun _ => 0)
  | .atomicSubReturn v i => (v, update (· - i) (· - i))
  | .atomicSubReturnOld v i => (v, update (· - i) id)
  | .atomicCmpxchg t old new =>
    (t, fun v => (if narrow v = old then wide new else v, wide (narrow v)))
  | .atomicIncIfPostive t =>
    (t, fun v => (if 0 ≤ (narrow v).toInt then wide (narrow v + 1) else v, wide (narrow v)))
  | .atomicDecSetNegtiveIfZero t =>
    (t, fun v => (if (narrow v).toInt ≤ 0 then v else wide (decremented (narrow v)),
      wide (narrow v)))
  | .changeBit nr p => (bitWord nr p, update (· ^^^ bitMask nr) fun _ => 0)
  | .clearBit nr p => (bitWord nr p, update (· &&& ~~~bitMask nr) fun _ => 0)
  | .setBit nr p => (bitWord nr p, update (· ||| bitMask nr) fun _ => 0)
  | .testAndChangeBit nr p => (bitWord nr p, update (· ^^^ bitMask nr) (bitOf nr))
  | .testAndClearBit nr p => (bitWord nr p, update (· &&& ~~~bitMask nr) (bitOf nr))
  | .testAndSetBit nr p => (bitWord nr p, update (· ||| bitMask nr) (bitOf nr))
  | .testBit nr p => (bitWord nr p, fun v => (v, wide (bitOf nr (narrow v))))

/-! ## Each call is one update -/

@[simp] theorem narrow_wide (v : CInt) : narrow (wide v) = v := by simp [narrow, wide]
@[simp] theorem narrow_low (v : Word) : narrow (low v) = narrow v := by simp [narrow, low]
@[simp] theorem low_wide (v : CInt) : low (wide v) = wide v := by simp [low, wide]

theorem addLike_loop (op : Alu) (rest : List Instr) (s : Core) (v : Word) (i j : CInt)
    (out : Option (Fin 31)) (g : CInt → CInt)
    (hrest : ∀ w (t : Core), t.x 3 = wide i → t.x 0 = wide (op.eval (narrow w) i) →
      Quiet ⟨addLike op rest, operands s v i j, returned out⟩ Never
        (· = wide (g (narrow w))) 4 t) :
    Loop ⟨addLike op rest, operands s v i j, returned out⟩ (v, update (op.eval · i) g) 0 2
      (fun t => t.x 2 = v ∧ t.x 3 = wide i)
      (fun w t => t.x 2 = v ∧ t.x 3 = wide i ∧ t.x 0 = wide (op.eval (narrow w) i)) where
  entry := .here ⟨rfl, rfl, rfl⟩
  ldxr := by
    refine ⟨_, _, rfl, fun t ⟨hv, hi⟩ => ⟨hv, fun w => .next rfl rfl (.here ⟨rfl, ?_⟩)⟩⟩
    refine ⟨hv, hi, ?_⟩
    change wide (op.eval (narrow (low w)) (narrow (t.x 3))) = _
    rw [narrow_low, hi, narrow_wide]
  stxr := by
    rintro w t ⟨hv, hi, h0⟩
    refine ⟨_, _, _, rfl, hv, ?_, .goto rfl rfl (.here ⟨rfl, hv, hi⟩), .next rfl rfl ?_⟩
    · simp [h0, update]
    · exact hrest w _ hi h0

theorem addLike_plain (op : Alu) (s : Core) (v : Word) (i : CInt) :
    Implements (.routine ⟨addLike op [], operands s v i 0, returned none⟩)
      (v, update (op.eval · i) fun _ => 0) :=
  .routine (addLike_loop op [] s v i 0 none _ fun _ _ _ _ => .fin rfl rfl)

theorem addLike_return (op : Alu) (s : Core) (v : Word) (i : CInt) :
    Implements (.routine ⟨addLike op [], operands s v i 0, returned (some 0)⟩)
      (v, update (op.eval · i) (op.eval · i)) := by
  refine .routine (addLike_loop op [] s v i 0 (some 0) _ fun w t _ h0 => .fin rfl ?_)
  simp [returned, h0]

theorem addLike_old (op undo : Alu) (hundo : ∀ p q : CInt, undo.eval (op.eval p q) q = p)
    (s : Core) (v : Word) (i : CInt) :
    Implements (.routine ⟨addLike op [.alu .w undo (.x 0) (.x 0) (.reg (.x 3))],
      operands s v i 0, returned (some 0)⟩) (v, update (op.eval · i) id) := by
  refine .routine (addLike_loop op _ s v i 0 (some 0) _ fun w t hi h0 =>
    .next rfl rfl (.fin rfl ?_))
  change low (wide (undo.eval (narrow (t.x 0)) (narrow (t.x 3)))) = _
  rw [h0, hi, narrow_wide, narrow_wide, hundo, low_wide]
  rfl

/-! ### Comparing functions -/

theorem cmpxchg_loop (s : Core) (t : Word) (old new : CInt) :
    Loop ⟨atomicCmpxchg, operands s t old new, returned (some 1)⟩
      (spec (.atomicCmpxchg t old new)) 0 3
      (fun u => u.x 2 = t ∧ u.x 3 = wide old ∧ u.x 4 = wide new)
      (fun v u => u.x 2 = t ∧ u.x 3 = wide old ∧ u.x 4 = wide new ∧ u.x 1 = wide (narrow v) ∧
        narrow v = old) where
  entry := .here ⟨rfl, rfl, rfl, rfl⟩
  ldxr := by
    refine ⟨_, _, rfl, fun u ⟨ht, hold, hnew⟩ => ⟨ht, fun v => .next rfl rfl ?_⟩⟩
    refine .branch rfl rfl (fun hne => .fin rfl ?_) fun heq => .here ⟨rfl, ?_⟩
    · change Cond.ne.holds (subFlags (narrow (low v)) (narrow (u.x 3))) = true at hne
      rw [narrow_low, hold, narrow_wide, holds_ne, decide_eq_true_iff] at hne
      exact ⟨low_wide _, if_neg hne⟩
    · change Cond.ne.holds (subFlags (narrow (low v)) (narrow (u.x 3))) = false at heq
      rw [narrow_low, hold, narrow_wide, holds_ne, decide_eq_false_iff_not, not_not] at heq
      exact ⟨ht, hold, hnew, rfl, heq⟩
  stxr := by
    rintro v u ⟨ht, hold, hnew, h1, hv⟩
    refine ⟨_, _, _, rfl, ht, ?_, .goto rfl rfl (.here ⟨rfl, ht, hold, hnew⟩), .next rfl rfl
      (.fin rfl ?_)⟩
    · change low (u.x 4) = if narrow v = old then wide new else v
      rw [hnew, if_pos hv, low_wide]
    · change low (u.x 1) = wide (narrow v)
      rw [h1, low_wide]

theorem incIfPostive_loop (s : Core) (t : Word) :
    Loop ⟨atomicIncIfPostive, operands s t 0 0, returned (some 1)⟩
      (spec (.atomicIncIfPostive t)) 0 4 (fun u => u.x 2 = t)
      (fun v u => u.x 2 = t ∧ u.x 1 = wide (narrow v) ∧ u.x 3 = wide (narrow v + 1) ∧
        0 ≤ (narrow v).toInt) where
  entry := .here ⟨rfl, rfl⟩
  ldxr := by
    refine ⟨_, _, rfl, fun u ht => ⟨ht, fun v => .next rfl rfl ?_⟩⟩
    refine .branch rfl rfl (fun hlt => .fin rfl ?_) fun hge => .next rfl rfl (.here ⟨rfl, ?_⟩)
    · change Cond.lt.holds (subFlags (narrow (low v)) 0) = true at hlt
      rw [narrow_low, holds_lt_zero, decide_eq_true_iff] at hlt
      exact ⟨low_wide _, if_neg (by omega)⟩
    · change Cond.lt.holds (subFlags (narrow (low v)) 0) = false at hge
      rw [narrow_low, holds_lt_zero, decide_eq_false_iff_not] at hge
      refine ⟨ht, rfl, ?_, by omega⟩
      change wide (narrow (low v) + 1) = _
      rw [narrow_low]
  stxr := by
    rintro v u ⟨ht, h1, h3, hv⟩
    refine ⟨_, _, _, rfl, ht, ?_, .goto rfl rfl (.here ⟨rfl, ht⟩), .next rfl rfl (.fin rfl ?_)⟩
    · change low (u.x 3) = if 0 ≤ (narrow v).toInt then wide (narrow v + 1) else v
      rw [h3, if_pos hv, low_wide]
    · change low (u.x 1) = wide (narrow v)
      rw [h1, low_wide]

theorem sub_one_eq_zero {v : CInt} : v - 1 = 0 ↔ v = 1 := by
  rw [BitVec.sub_eq_iff_eq_add]
  rfl

theorem decSetNegtiveIfZero_loop (s : Core) (t : Word) :
    Loop ⟨atomicDecSetNegtiveIfZero, operands s t 0 0, returned (some 1)⟩
      (spec (.atomicDecSetNegtiveIfZero t)) 0 7 (fun u => u.x 2 = t)
      (fun v u => u.x 2 = t ∧ u.x 1 = wide (narrow v) ∧ u.x 3 = wide (decremented (narrow v)) ∧
        ¬ (narrow v).toInt ≤ 0) where
  entry := .here ⟨rfl, rfl⟩
  ldxr := by
    refine ⟨_, _, rfl, fun u ht => ⟨ht, fun v => .next rfl rfl ?_⟩⟩
    refine .branch rfl rfl (fun hle => .fin rfl ?_) fun hgt => .next rfl rfl (.next rfl rfl
      (.branch rfl rfl (fun hne => .here ⟨rfl, ?_⟩) fun heq => .next rfl rfl (.here ⟨rfl, ?_⟩)))
    · change Cond.le.holds (subFlags (narrow (low v)) 0) = true at hle
      rw [narrow_low, holds_le_zero, decide_eq_true_iff] at hle
      exact ⟨low_wide _, if_pos hle⟩
    · change Cond.le.holds (subFlags (narrow (low v)) 0) = false at hgt
      change Cond.ne.holds (subFlags (narrow (wide (narrow (low v) - 1))) 0) = true at hne
      rw [narrow_low, holds_le_zero, decide_eq_false_iff_not] at hgt
      rw [narrow_low, narrow_wide, holds_ne, decide_eq_true_iff] at hne
      refine ⟨ht, rfl, ?_, hgt⟩
      change wide (narrow (low v) - 1) = _
      rw [narrow_low, decremented, if_neg fun h => hne (sub_one_eq_zero.2 h)]
    · change Cond.le.holds (subFlags (narrow (low v)) 0) = false at hgt
      change Cond.ne.holds (subFlags (narrow (wide (narrow (low v) - 1))) 0) = false at heq
      rw [narrow_low, holds_le_zero, decide_eq_false_iff_not] at hgt
      rw [narrow_low, narrow_wide, holds_ne, decide_eq_false_iff_not, not_not] at heq
      refine ⟨ht, rfl, ?_, hgt⟩
      change wide (narrow (wide (narrow (low v) - 1)) - 1) = _
      rw [narrow_low, narrow_wide, heq, decremented, if_pos (sub_one_eq_zero.1 heq)]
      rfl
  stxr := by
    rintro v u ⟨ht, h1, h3, hv⟩
    refine ⟨_, _, _, rfl, ht, ?_, .goto rfl rfl (.here ⟨rfl, ht⟩), .next rfl rfl (.fin rfl ?_)⟩
    · change low (u.x 3) = if (narrow v).toInt ≤ 0 then v else wide (decremented (narrow v))
      rw [h3, if_neg hv, low_wide]
    · change low (u.x 1) = wide (narrow v)
      rw [h1, low_wide]

/-! ### Bit operations -/

theorem and_31 (nr : CInt) : nr &&& 31#32 = nr % 32 := by
  apply BitVec.eq_of_toNat_eq
  rw [BitVec.toNat_and, BitVec.toNat_umod]
  exact Nat.and_two_pow_sub_one_eq_mod nr.toNat 5

theorem clear_low (n : Nat) : n ^^^ n % 32 = n / 32 * 32 := by
  apply Nat.eq_of_testBit_eq
  intro i
  have hm : (n % 2 ^ 5).testBit i = (decide (i < 5) && n.testBit i) := Nat.testBit_mod_two_pow ..
  have hd : (n / 2 ^ 5 * 2 ^ 5).testBit i = (decide (i ≥ 5) && (n / 2 ^ 5).testBit (i - 5)) :=
    Nat.testBit_mul_two_pow ..
  rw [Nat.testBit_xor]
  change (n.testBit i ^^ (n % 2 ^ 5).testBit i) = (n / 2 ^ 5 * 2 ^ 5).testBit i
  rw [hm, hd, Nat.testBit_div_two_pow]
  by_cases hi : i < 5
  · simp [hi, show ¬ i ≥ 5 by omega]
  · simp [hi, show i ≥ 5 by omega, show i - 5 + 5 = i by omega]

theorem toNat_mod (nr : CInt) : (nr % 32).toNat = nr.toNat % 32 := BitVec.toNat_umod

/-- The address of the word, as the first instructions compute it: without the five low bits of
`nr`, and by the byte. -/
theorem entry_word (nr : CInt) (p : Word) :
    p + wide (narrow (wide nr) ^^^ narrow (wide (narrow (wide nr) &&& 31#32))) >>> 3 =
      bitWord nr p := by
  rw [narrow_wide, narrow_wide]
  refine congrArg (p + ·) (BitVec.eq_of_toNat_eq ?_)
  have hlt := nr.isLt
  have hdiv : (nr / 32).toNat = nr.toNat / 32 := BitVec.toNat_udiv
  have hmul : (nr / 32 * 4).toNat = nr.toNat / 32 * 4 % 2 ^ 32 := by
    rw [BitVec.toNat_mul, hdiv]
    rfl
  simp only [wide, BitVec.toNat_ushiftRight, BitVec.toNat_setWidth, BitVec.toNat_xor, and_31,
    toNat_mod, clear_low, hmul, Nat.shiftRight_eq_div_pow]
  omega

theorem entry_mask (nr : CInt) :
    narrow ((0 ||| 1#64) <<< ((wide (narrow (wide nr) &&& 31#32)).toNat % 64)) = bitMask nr := by
  have hlt : nr.toNat % 32 < 32 := Nat.mod_lt _ (by decide)
  have hk : (wide (nr &&& 31#32)).toNat % 64 = nr.toNat % 32 := by
    rw [wide, BitVec.toNat_setWidth, and_31, toNat_mod]
    omega
  rw [narrow_wide, hk, bitMask, narrow, toNat_mod]
  apply BitVec.eq_of_getLsbD_eq
  intro i hi
  simp [hi]

theorem bitop_loop (op : Alu) (s : Core) (nr : CInt) (p : Word) :
    Loop ⟨bitop op, arguments s nr p, returned none⟩
      (bitWord nr p, update (op.eval · (bitMask nr)) fun _ => 0) 5 7
      (fun u => u.x 1 = bitWord nr p ∧ narrow (u.x 3) = bitMask nr)
      (fun v u => u.x 1 = bitWord nr p ∧ narrow (u.x 3) = bitMask nr ∧
        u.x 2 = wide (op.eval (narrow v) (bitMask nr))) where
  entry := by
    refine .next rfl (exec_alu_w ..) (.next rfl (exec_alu_w ..) (.next rfl (exec_alu ..)
      (.next rfl (exec_alu ..) (.next rfl (exec_alu ..) (.here ⟨rfl, ?_, ?_⟩)))))
    · rw [Core.opnd_lsr]
      exact entry_word nr p
    · rw [Core.opnd_reg]
      exact entry_mask nr
  ldxr := by
    refine ⟨_, _, rfl, fun u ⟨h1, h3⟩ => ⟨h1, fun v => .next rfl rfl (.here ⟨rfl, h1, h3, ?_⟩)⟩⟩
    change wide (op.eval (narrow (low v)) (narrow (u.x 3))) = _
    rw [narrow_low, h3]
  stxr := by
    rintro v u ⟨h1, h3, h2⟩
    refine ⟨_, _, _, rfl, h1, ?_, .goto rfl rfl (.here ⟨rfl, h1, h3⟩),
      .next rfl rfl (.ret rfl rfl rfl)⟩
    simp [h2, update]

theorem testop_loop (op : Alu) (s : Core) (nr : CInt) (p : Word) :
    Loop ⟨testop op, arguments s nr p, returned (some 0)⟩
      (bitWord nr p, update (op.eval · (bitMask nr)) (bitOf nr)) 5 8
      (fun u => u.x 1 = bitWord nr p ∧ u.x 3 = wide (nr &&& 31#32) ∧ narrow (u.x 4) = bitMask nr)
      (fun v u => u.x 1 = bitWord nr p ∧ u.x 3 = wide (nr &&& 31#32) ∧ narrow (u.x 4) = bitMask nr ∧
        u.x 2 = wide (op.eval (narrow v) (bitMask nr)) ∧
        u.x 0 = wide (narrow v >>> (nr % 32).toNat)) where
  entry := by
    refine .next rfl (exec_alu_w ..) (.next rfl (exec_alu_w ..) (.next rfl (exec_alu ..)
      (.next rfl (exec_alu ..) (.next rfl (exec_alu ..) (.here ⟨rfl, ?_, ?_, ?_⟩)))))
    · rw [Core.opnd_lsr]
      exact entry_word nr p
    · exact congrArg (fun v => wide (v &&& 31#32)) (narrow_wide nr)
    · rw [Core.opnd_reg]
      exact entry_mask nr
  ldxr := by
    refine ⟨_, _, rfl, fun u ⟨h1, h3, h4⟩ => ⟨h1, fun v => .next rfl rfl (.next rfl rfl
      (.here ⟨rfl, h1, h3, h4, ?_, ?_⟩))⟩⟩
    · change wide (op.eval (narrow (low v)) (narrow (u.x 4))) = _
      rw [narrow_low, h4]
    · change wide (narrow (low v) >>> ((narrow (u.x 3)).toNat % 32)) = _
      rw [narrow_low, h3, narrow_wide, and_31, toNat_mod, Nat.mod_mod]
  stxr := by
    rintro v u ⟨h1, h3, h4, h2, h0⟩
    refine ⟨_, _, _, rfl, h1, ?_, .goto rfl rfl (.here ⟨rfl, h1, h3, h4⟩),
      .next rfl rfl (.next rfl rfl (.next rfl rfl (.ret rfl rfl ?_)))⟩
    · simp [h2, update]
    · change low (wide (narrow (u.x 0) &&& 1)) = _
      rw [h0, narrow_wide, low_wide]
      rfl

theorem testBit_loop (s : Core) (nr : CInt) (p : Word) :
    Loop ⟨testBit, arguments s nr p, returned (some 0)⟩ (spec (.testBit nr p)) 3 0
      (fun u => u.x 1 = bitWord nr p ∧ u.x 3 = wide (nr &&& 31#32)) Never where
  entry := by
    refine .next rfl (exec_alu_w ..) (.next rfl (exec_alu_w ..) (.next rfl (exec_alu ..)
      (.here ⟨rfl, ?_, ?_⟩)))
    · rw [Core.opnd_lsr]
      exact entry_word nr p
    · exact congrArg (fun v => wide (v &&& 31#32)) (narrow_wide nr)
  ldxr := by
    refine ⟨_, _, rfl, fun u ⟨h1, h3⟩ => ⟨h1, fun v => .next rfl rfl (.next rfl rfl
      (.ret rfl rfl ⟨?_, rfl⟩))⟩⟩
    change low (wide (narrow (wide (narrow (low v) >>> ((narrow (u.x 3)).toNat % 32))) &&& 1)) = _
    rw [narrow_low, h3, narrow_wide, narrow_wide, and_31, toNat_mod, Nat.mod_mod, low_wide,
      ← toNat_mod]
    rfl
  stxr := fun _ _ h => h.elim

/-- **Each function** of `atomic.h` and `bitops.S` makes the update `spec` says. -/
theorem implements (s : Core) (o : Op) : Implements (impl s o) (spec o) := by
  cases o with
  | load p => exact .load p
  | store p v => exact .store p v
  | atomicRead t => exact .load t
  | atomicSet t i => exact .store t (wide i)
  | atomicAdd v i => exact addLike_plain .add s v i
  | atomicAddReturn v i => exact addLike_return .add s v i
  | atomicAddReturnOld v i => exact addLike_old .add .sub BitVec.add_sub_cancel s v i
  | atomicSub v i => exact addLike_plain .sub s v i
  | atomicSubReturn v i => exact addLike_return .sub s v i
  | atomicSubReturnOld v i => exact addLike_old .sub .add BitVec.sub_add_cancel s v i
  | atomicCmpxchg t old new => exact .routine (cmpxchg_loop s t old new)
  | atomicIncIfPostive t => exact .routine (incIfPostive_loop s t)
  | atomicDecSetNegtiveIfZero t => exact .routine (decSetNegtiveIfZero_loop s t)
  | changeBit nr p => exact .routine (bitop_loop .eor s nr p)
  | clearBit nr p => exact .routine (bitop_loop .bic s nr p)
  | setBit nr p => exact .routine (bitop_loop .orr s nr p)
  | testAndChangeBit nr p => exact .routine (testop_loop .eor s nr p)
  | testAndClearBit nr p => exact .routine (testop_loop .bic s nr p)
  | testAndSetBit nr p => exact .routine (testop_loop .orr s nr p)
  | testBit nr p => exact .routine (testBit_loop s nr p)

/-! ## Programs on several processors -/

section
variable {C K : Type} [DecidableEq C]

/-- Every processor in its client, with nothing reserved. -/
def boot (mem : Word → Word) (start : C → K) : State C Word Word (Local K) :=
  ⟨mem, fun _ => none, fun c => .client (start c)⟩

abbrev Run (regs : Core) (cmd : K → Option (Op × (Word → K))) :
    State C Word Word (Local K) → State C Word Word (Local K) → Prop :=
  Steps (step (issue (impl regs) cmd)) fun _ _ => True

/-- **Calls are atomic.** Take any programs on any number of processors that call the functions of
`atomic.h` and `bitops.S`, and any interleaving of their instructions. The memory is that of a
run in which every call is one step; each processor is where it is in that run, or inside a call
that is still to come or just made there; and it comes out of the call if the others pause. -/
theorem atomic_calls (regs : Core) (cmd : K → Option (Op × (Word → K))) (mem : Word → Word)
    (start : C → K) {s : State C Word Word (Local K)}
    (hrun : Run regs cmd (boot mem start) s) :
    ∃ t : AtomicState C Word Word K, AtomicRun (atomic spec cmd) ⟨mem, start⟩ t ∧
      t.mem = s.mem ∧ (∀ c, Sees (impl regs) cmd (s.loc c) (t.loc c)) ∧
      ∀ c, Finishes (impl regs) cmd c s :=
  runs (implements regs) hrun

end

def calls (k : List Op × Word) : Option (Op × (Word → List Op × Word)) :=
  match k.1 with
  | [] => none
  | o :: os => some (o, fun w => (os, w))

def someCore : Core := ⟨fun _ => 0, 0, fun _ => 0, ⟨false, false, false, false⟩⟩

/-- Processor `true` loses its reservation to the other one, and adds in its second round. -/
theorem atomic_calls_two :
    ∃ s : State Bool Word Word (Local (List Op × Word)),
      Run someCore calls (boot (fun _ => 5) fun _ => ([.atomicAddReturn 64 1], 0)) s ∧
      s.mem 64 = 7 ∧ (∀ c, ∃ w, s.loc c = .client ([], w)) ∧
      ∃ t : AtomicState Bool Word Word (List Op × Word),
        AtomicRun (atomic spec calls) ⟨fun _ => 5, fun _ => ([.atomicAddReturn 64 1], 0)⟩ t ∧
        t.mem = s.mem := by
  have hrun : ∃ s, run (step (issue (impl someCore) calls))
      (boot (fun _ => 5) fun _ => ([.atomicAddReturn 64 1], 0))
      [(true, true), (true, true), (false, true), (false, true), (false, true), (false, true),
        (true, true), (true, true), (true, true), (true, true), (true, true), (true, true),
        (true, true), (false, true)] = some s ∧
      s.mem 64 = 7 ∧ ∀ c, ∃ w, s.loc c = Local.client ([], w) :=
    ⟨_, rfl, rfl, fun c => by cases c <;> exact ⟨_, rfl⟩⟩
  obtain ⟨s, hs, hmem, hloc⟩ := hrun
  have hsteps := Steps.refl.run (fun _ _ => trivial) hs
  obtain ⟨t, ht, heq, -⟩ := atomic_calls someCore calls (fun _ => 5) _ hsteps
  exact ⟨s, hsteps, hmem, hloc, t, ht, heq⟩

end SpringOs.Atomic
