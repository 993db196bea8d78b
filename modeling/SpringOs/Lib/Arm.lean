import Mathlib.Algebra.GroupWithZero.Nat
import Mathlib.Logic.Function.Basic

/-!
A part of the AArch64 instruction set: data processing, loads and stores with their
addressing modes, exclusive loads and stores, system registers and branches.

`exec` says what an instruction asks of the memory and what it does with the answers
(**`Action`**), so that the same instructions run on any memory: here on one processor with
the bytes it may access (`run`), elsewhere on several processors at once.

* `exec`: the instructions;
* `Mem`, `read`, `write`: memory by the byte, least significant byte first;
* **`Returns`** and its rules: code that ends, and in which states.
-/

namespace SpringOs.Lib.Arm
open Function (update update_self update_of_ne)

abbrev Word := BitVec 64
abbrev Byte := BitVec 8

/-! ## Registers -/

/-- The literals for the 31 general registers use this. -/
instance neZero_registers : NeZero 31 := ⟨by decide⟩

inductive Reg
  | x (i : Fin 31)
  | zr
  | sp
  deriving DecidableEq

inductive SysReg
  | spsrEl1
  | elrEl1
  | spEl0
  | esrEl1
  | farEl1
  deriving DecidableEq

structure Flags where
  n : Bool
  z : Bool
  c : Bool
  v : Bool

structure Core where
  x : Fin 31 → Word
  sp : Word
  sys : SysReg → Word
  flags : Flags

def Core.get (s : Core) : Reg → Word
  | .x i => s.x i
  | .zr => 0
  | .sp => s.sp

def Core.set (s : Core) (r : Reg) (v : Word) : Core :=
  match r with
  | .x i => { s with x := update s.x i v }
  | .zr => s
  | .sp => { s with sp := v }

section
variable (s : Core) (i j : Fin 31) (v : Word) (f : Flags)

@[simp] theorem Core.get_x : s.get (.x i) = s.x i := rfl
@[simp] theorem Core.get_zr : s.get .zr = 0 := rfl
@[simp] theorem Core.get_sp : s.get .sp = s.sp := rfl
@[simp] theorem Core.set_zr : s.set .zr v = s := rfl
@[simp] theorem Core.set_sp_sp : (s.set .sp v).sp = v := rfl
@[simp] theorem Core.set_sp_x : (s.set .sp v).x = s.x := rfl
@[simp] theorem Core.set_x_sp : (s.set (.x i) v).sp = s.sp := rfl
@[simp] theorem Core.set_x_self : (s.set (.x i) v).x i = v := update_self ..

@[simp] theorem Core.set_x_ne (h : j ≠ i) : (s.set (.x i) v).x j = s.x j :=
  update_of_ne h ..

@[simp] theorem Core.set_sys (r : Reg) : (s.set r v).sys = s.sys := by cases r <;> rfl
@[simp] theorem Core.set_flags (r : Reg) : (s.set r v).flags = s.flags := by cases r <;> rfl

end

/-! ## Operands -/

/-- A register as its 32 low bits (`w`) or all 64 (`x`). -/
inductive Width
  | w
  | x

def Width.bits : Width → Nat
  | .w => 32
  | .x => 64

/-- The second operand: an immediate, or a register, shifted. -/
inductive Opnd
  | imm (v : Nat)
  | reg (r : Reg)
  | lsl (r : Reg) (k : Nat)
  | lsr (r : Reg) (k : Nat)

def Core.opnd (s : Core) (b : Nat) : Opnd → BitVec b
  | .imm v => BitVec.ofNat b v
  | .reg r => (s.get r).setWidth b
  | .lsl r k => (s.get r).setWidth b <<< k
  | .lsr r k => (s.get r).setWidth b >>> k

section
variable (s : Core) (r : Reg) (k : Nat)

@[simp] theorem Core.opnd_imm (b v : Nat) : s.opnd b (.imm v) = BitVec.ofNat b v := rfl
@[simp] theorem Core.opnd_reg : s.opnd 64 (.reg r) = s.get r := BitVec.setWidth_eq _
@[simp] theorem Core.opnd_reg_w : s.opnd 32 (.reg r) = (s.get r).setWidth 32 := rfl

@[simp] theorem Core.opnd_lsl : s.opnd 64 (.lsl r k) = s.get r <<< k := by
  rw [Core.opnd, BitVec.setWidth_eq]

@[simp] theorem Core.opnd_lsr : s.opnd 64 (.lsr r k) = s.get r >>> k := by
  rw [Core.opnd, BitVec.setWidth_eq]

end

inductive Alu
  | add
  | sub
  | and
  | orr
  | eor
  | bic
  | lsl
  | lsr

/-- Shifts by a register use its value modulo the width. -/
def Alu.eval {b : Nat} : Alu → BitVec b → BitVec b → BitVec b
  | .add, p, q => p + q
  | .sub, p, q => p - q
  | .and, p, q => p &&& q
  | .orr, p, q => p ||| q
  | .eor, p, q => p ^^^ q
  | .bic, p, q => p &&& ~~~q
  | .lsl, p, q => p <<< (q.toNat % b)
  | .lsr, p, q => p >>> (q.toNat % b)

/-- The flags of an addition: carry out, and signed overflow. -/
def addFlags {b : Nat} (p q : BitVec b) : Flags :=
  ⟨(p + q).msb, p + q == 0, decide (2 ^ b ≤ p.toNat + q.toNat),
    p.msb == q.msb && (p + q).msb != p.msb⟩

/-- The flags of a subtraction: no borrow, and signed overflow. -/
def subFlags {b : Nat} (p q : BitVec b) : Flags :=
  ⟨(p - q).msb, p - q == 0, decide (q.toNat ≤ p.toNat), p.msb != q.msb && (p - q).msb != p.msb⟩

def Alu.flags {b : Nat} : Alu → BitVec b → BitVec b → Flags
  | .add, p, q => addFlags p q
  | .sub, p, q => subFlags p q
  | op, p, q => ⟨(op.eval p q).msb, op.eval p q == 0, false, false⟩

inductive Cond
  | eq
  | ne
  | cs
  | cc
  | mi
  | pl
  | hi
  | ls
  | ge
  | lt
  | gt
  | le

def Cond.holds (f : Flags) : Cond → Bool
  | .eq => f.z
  | .ne => !f.z
  | .cs => f.c
  | .cc => !f.c
  | .mi => f.n
  | .pl => !f.n
  | .hi => f.c && !f.z
  | .ls => !f.c || f.z
  | .ge => f.n == f.v
  | .lt => f.n != f.v
  | .gt => !f.z && f.n == f.v
  | .le => f.z || f.n != f.v

/-! ### Comparisons -/

section
variable {b : Nat} (p q : BitVec b)

theorem holds_eq : Cond.eq.holds (subFlags p q) = decide (p = q) := by
  rw [Bool.eq_iff_iff, decide_eq_true_iff]
  simp only [Cond.holds, subFlags, beq_iff_eq, BitVec.sub_eq_iff_eq_add, BitVec.ofNat_eq_ofNat,
    BitVec.zero_add]

theorem holds_ne : Cond.ne.holds (subFlags p q) = decide (p ≠ q) := by
  rw [decide_not, ← holds_eq]
  rfl

theorem holds_cs : Cond.cs.holds (subFlags p q) = decide (q.toNat ≤ p.toNat) := rfl

theorem holds_cc : Cond.cc.holds (subFlags p q) = decide (p.toNat < q.toNat) := by
  simp only [Cond.holds, subFlags, ← decide_not, Nat.not_le]

theorem holds_lt_zero : Cond.lt.holds (subFlags p 0) = decide (p.toInt < 0) := by
  simp [Cond.holds, subFlags, BitVec.msb_eq_toInt]

theorem holds_le_zero : Cond.le.holds (subFlags p 0) = decide (p.toInt ≤ 0) := by
  have hz : (p == 0) = decide (p.toInt = 0) := by
    rw [Bool.eq_iff_iff, beq_iff_eq, decide_eq_true_iff, ← BitVec.toInt_inj]
    simp
  have hle : Cond.le.holds (subFlags p 0) = ((p == 0) || Cond.lt.holds (subFlags p 0)) := by
    simp [Cond.holds, subFlags]
  rw [hle, hz, holds_lt_zero, ← Bool.decide_or, decide_eq_decide]
  omega

end

theorem holds_ge {p q : BitVec 64} (hp : p.toNat < 2 ^ 63) (hq : q.toNat < 2 ^ 63) :
    Cond.ge.holds (subFlags p q) = decide (q.toNat ≤ p.toNat) := by
  have hpm : p.msb = false := by rw [BitVec.msb_eq_decide, decide_eq_false_iff_not]; omega
  have hqm : q.msb = false := by rw [BitVec.msb_eq_decide, decide_eq_false_iff_not]; omega
  have hm : (p - q).msb = decide (p.toNat < q.toNat) := by
    rw [BitVec.msb_eq_decide, decide_eq_decide, BitVec.toNat_sub]
    omega
  simp only [Cond.holds, subFlags, hpm, hqm, hm, bne_self_eq_false, Bool.false_and]
  by_cases h : p.toNat < q.toNat
  · simp [h]
  · simp [h, Nat.not_lt.1 h]

theorem holds_lt_w {p q : BitVec 32} (hp : p.toNat < 2 ^ 31) (hq : q.toNat < 2 ^ 31) :
    Cond.lt.holds (subFlags p q) = decide (p.toNat < q.toNat) := by
  have hpm : p.msb = false := by rw [BitVec.msb_eq_decide, decide_eq_false_iff_not]; omega
  have hqm : q.msb = false := by rw [BitVec.msb_eq_decide, decide_eq_false_iff_not]; omega
  have hm : (p - q).msb = decide (p.toNat < q.toNat) := by
    rw [BitVec.msb_eq_decide, decide_eq_decide, BitVec.toNat_sub]
    omega
  simp only [Cond.holds, subFlags, hpm, hqm, hm, bne_self_eq_false, Bool.false_and]
  by_cases h : p.toNat < q.toNat <;> simp [h]

/-- A base register with an offset, with an index register, or changed before or after the
access. -/
inductive Addr
  | off (n : Reg) (k : Int)
  | idx (n m : Reg)
  | pre (n : Reg) (k : Int)
  | post (n : Reg) (k : Int)

/-- The address, and the state with the base register changed. -/
def Core.addr (s : Core) : Addr → Word × Core
  | .off n k => (s.get n + BitVec.ofInt 64 k, s)
  | .idx n m => (s.get n + s.get m, s)
  | .pre n k => (s.get n + BitVec.ofInt 64 k, s.set n (s.get n + BitVec.ofInt 64 k))
  | .post n k => (s.get n, s.set n (s.get n + BitVec.ofInt 64 k))

/-! ## Instructions -/

/-- Sizes are in bytes; the target of a branch is the number of an instruction. -/
inductive Instr
  | alu (f : Width) (op : Alu) (d n : Reg) (m : Opnd)
  | alus (f : Width) (op : Alu) (d n : Reg) (m : Opnd)
  | csel (d n m : Reg) (k : Cond)
  | csinv (d n m : Reg) (k : Cond)
  | ccmp (f : Width) (n : Reg) (m : Opnd) (nzcv : Flags) (k : Cond)
  | rev (d n : Reg)
  | clz (d n : Reg)
  | ldr (size : Nat) (t : Reg) (a : Addr)
  | str (size : Nat) (t : Reg) (a : Addr)
  | ldp (t u : Reg) (a : Addr)
  | stp (t u : Reg) (a : Addr)
  | ldxr (t n : Reg)
  | stxr (d t n : Reg)
  | mrs (d : Reg) (r : SysReg)
  | msr (r : SysReg) (n : Reg)
  | dmb
  | b (l : Nat)
  | bc (k : Cond) (l : Nat)
  | cbz (f : Width) (n : Reg) (l : Nat)
  | cbnz (f : Width) (n : Reg) (l : Nat)
  | tbz (n : Reg) (bit l : Nat)
  | ret

/-- `mov`, `neg`, `cmp` and `tst` are other names for data processing with the zero register. -/
def Instr.mov (f : Width) (d : Reg) (m : Opnd) : Instr := .alu f .orr d .zr m
def Instr.neg (d : Reg) (m : Opnd) : Instr := .alu .x .sub d .zr m
def Instr.cmp (f : Width) (n : Reg) (m : Opnd) : Instr := .alus f .sub .zr n m
def Instr.tst (n : Reg) (m : Opnd) : Instr := .alus .x .and .zr n m

/-- What an instruction asks of the memory. An exclusive store is answered with whether it
stored. -/
inductive Action (S : Type)
  | done (s : S)
  | load (size : Nat) (a : Word) (k : Word → Action S)
  | store (size : Nat) (a v : Word) (k : Action S)
  | loadEx (a : Word) (k : Word → Action S)
  | storeEx (a v : Word) (k : Bool → Action S)

inductive Next
  | next
  | goto (l : Nat)
  | ret

/-- The bytes of a word in the opposite order. -/
def rev (v : Word) : Word :=
  v.extractLsb' 0 8 ++ v.extractLsb' 8 8 ++ v.extractLsb' 16 8 ++ v.extractLsb' 24 8 ++
    v.extractLsb' 32 8 ++ v.extractLsb' 40 8 ++ v.extractLsb' 48 8 ++ v.extractLsb' 56 8

def branch (s : Core) (taken : Bool) (l : Nat) : Action (Core × Next) :=
  .done (s, if taken then .goto l else .next)

def exec (i : Instr) (s : Core) : Action (Core × Next) :=
  match i with
  | .alu f op d n m =>
    .done (s.set d ((op.eval ((s.get n).setWidth f.bits) (s.opnd f.bits m)).setWidth 64), .next)
  | .alus f op d n m =>
    let p := (s.get n).setWidth f.bits
    let q := s.opnd f.bits m
    .done ({ s.set d ((op.eval p q).setWidth 64) with flags := op.flags p q }, .next)
  | .csel d n m k => .done (s.set d (if k.holds s.flags then s.get n else s.get m), .next)
  | .csinv d n m k => .done (s.set d (if k.holds s.flags then s.get n else ~~~s.get m), .next)
  | .ccmp f n m nzcv k =>
    let compared := subFlags ((s.get n).setWidth f.bits) (s.opnd f.bits m)
    .done ({ s with flags := if k.holds s.flags then compared else nzcv }, .next)
  | .rev d n => .done (s.set d (rev (s.get n)), .next)
  | .clz d n => .done (s.set d (s.get n).clz, .next)
  | .ldr size t a => .load size (s.addr a).1 fun v => .done ((s.addr a).2.set t v, .next)
  | .str size t a => .store size (s.addr a).1 (s.get t) (.done ((s.addr a).2, .next))
  | .ldp t u a =>
    .load 8 (s.addr a).1 fun v => .load 8 ((s.addr a).1 + 8) fun w =>
      .done (((s.addr a).2.set t v).set u w, .next)
  | .stp t u a =>
    .store 8 (s.addr a).1 (s.get t) (.store 8 ((s.addr a).1 + 8) (s.get u)
      (.done ((s.addr a).2, .next)))
  | .ldxr t n => .loadEx (s.get n) fun v => .done (s.set t v, .next)
  | .stxr d t n =>
    .storeEx (s.get n) (s.get t) fun stored => .done (s.set d (if stored then 0 else 1), .next)
  | .mrs d r => .done (s.set d (s.sys r), .next)
  | .msr r n => .done ({ s with sys := update s.sys r (s.get n) }, .next)
  | .dmb => .done (s, .next)
  | .b l => .done (s, .goto l)
  | .bc k l => branch s (k.holds s.flags) l
  | .cbz f n l => branch s ((s.get n).setWidth f.bits == 0) l
  | .cbnz f n l => branch s ((s.get n).setWidth f.bits != 0) l
  | .tbz n bit l => branch s (!(s.get n).getLsbD bit) l
  | .ret => .done (s, .ret)

theorem exec_alu (op : Alu) (d n : Reg) (m : Opnd) (s : Core) :
    exec (.alu .x op d n m) s = .done (s.set d (op.eval (s.get n) (s.opnd 64 m)), .next) := by
  simp only [exec, Width.bits, BitVec.setWidth_eq]

theorem exec_alu_w (op : Alu) (d n : Reg) (m : Opnd) (s : Core) :
    exec (.alu .w op d n m) s =
      .done (s.set d ((op.eval ((s.get n).setWidth 32) (s.opnd 32 m)).setWidth 64), .next) :=
  rfl

theorem exec_alus (op : Alu) (d n : Reg) (m : Opnd) (s : Core) :
    exec (.alus .x op d n m) s = .done ({ s.set d (op.eval (s.get n) (s.opnd 64 m)) with
      flags := op.flags (s.get n) (s.opnd 64 m) }, .next) := by
  simp only [exec, Width.bits, BitVec.setWidth_eq]

/-! ## One processor -/

/-- The bytes that may be accessed. -/
abbrev Mem := Word → Option Byte

def read (m : Mem) : Nat → Word → Option Word
  | 0, _ => some 0
  | n + 1, a => do
    let v ← m a
    let w ← read m n (a + 1)
    return v.setWidth 64 ||| w <<< 8

def write : Mem → Nat → Word → Word → Option Mem
  | m, 0, _, _ => some m
  | m, n + 1, a, v => do
    let _ ← m a
    write (update m a (some (v.setWidth 8))) n (a + 1) (v >>> 8)

/-- With one processor an exclusive store always stores. -/
def Action.run {S : Type} : Action S → Mem → Option (S × Mem)
  | .done s, m => some (s, m)
  | .load size a k, m => do (k (← read m size a)).run m
  | .store size a v k, m => do k.run (← write m size a v)
  | .loadEx a k, m => do (k (← read m 4 a)).run m
  | .storeEx a v k, m => do (k true).run (← write m 4 a v)

/-- Run code from an instruction on, for at most so many steps, up to `ret` or its end. -/
def run (code : List Instr) : Nat → Nat → Core → Mem → Option (Core × Mem)
  | 0, _, _, _ => none
  | fuel + 1, pc, s, m =>
    match code[pc]? with
    | none => some (s, m)
    | some i =>
      match (exec i s).run m with
      | none => none
      | some ((s', .next), m') => run code fuel (pc + 1) s' m'
      | some ((s', .goto l), m') => run code fuel l s' m'
      | some ((s', .ret), m') => some (s', m')

/-- The code ends, and then `Q` holds. -/
def Returns (code : List Instr) (pc : Nat) (s : Core) (m : Mem) (Q : Core → Mem → Prop) : Prop :=
  ∃ fuel s' m', run code fuel pc s m = some (s', m') ∧ Q s' m'

section
variable {code : List Instr} {pc l size : Nat} {s s' : Core} {m m' : Mem} {Q : Core → Mem → Prop}
  {i : Instr} {t d n u : Reg} {a : Addr} {op : Alu} {x : Opnd} {v : Word}

theorem Returns.next (hi : code[pc]? = some i) (hx : (exec i s).run m = some ((s', .next), m'))
    (h : Returns code (pc + 1) s' m' Q) : Returns code pc s m Q := by
  obtain ⟨fuel, t, m'', hrun, hQ⟩ := h
  refine ⟨fuel + 1, t, m'', ?_, hQ⟩
  rw [run, hi]
  simp only [hx, hrun]

theorem Returns.goto (hi : code[pc]? = some i) (hx : (exec i s).run m = some ((s', .goto l), m'))
    (h : Returns code l s' m' Q) : Returns code pc s m Q := by
  obtain ⟨fuel, t, m'', hrun, hQ⟩ := h
  refine ⟨fuel + 1, t, m'', ?_, hQ⟩
  rw [run, hi]
  simp only [hx, hrun]

theorem Returns.ret (hi : code[pc]? = some .ret) (h : Q s m) : Returns code pc s m Q := by
  refine ⟨1, s, m, ?_, h⟩
  rw [run, hi]
  rfl

theorem Returns.branch {t : Bool} (hi : code[pc]? = some i) (hx : exec i s = branch s t l)
    (htaken : t = true → Returns code l s m Q) (hnext : t = false → Returns code (pc + 1) s m Q) :
    Returns code pc s m Q := by
  cases t with
  | true => exact .goto hi (by rw [hx]; rfl) (htaken rfl)
  | false => exact .next hi (by rw [hx]; rfl) (hnext rfl)

theorem Returns.ldr (hi : code[pc]? = some (.ldr size t a)) (hv : read m size (s.addr a).1 = some v)
    (h : Returns code (pc + 1) ((s.addr a).2.set t v) m Q) : Returns code pc s m Q := by
  refine .next hi ?_ h
  simp only [exec, Action.run, hv]
  rfl

theorem Returns.str (hi : code[pc]? = some (.str size t a))
    (hm : write m size (s.addr a).1 (s.get t) = some m')
    (h : Returns code (pc + 1) (s.addr a).2 m' Q) : Returns code pc s m Q := by
  refine .next hi ?_ h
  simp only [exec, Action.run, hm]
  rfl

theorem Returns.ldp {w : Word} (hi : code[pc]? = some (.ldp t u a))
    (hv : read m 8 (s.addr a).1 = some v) (hw : read m 8 ((s.addr a).1 + 8) = some w)
    (h : Returns code (pc + 1) (((s.addr a).2.set t v).set u w) m Q) : Returns code pc s m Q := by
  refine .next hi ?_ h
  simp only [exec, Action.run, hv, hw]
  rfl

theorem Returns.stp {m'' : Mem} (hi : code[pc]? = some (.stp t u a))
    (hm : write m 8 (s.addr a).1 (s.get t) = some m')
    (hm' : write m' 8 ((s.addr a).1 + 8) (s.get u) = some m'')
    (h : Returns code (pc + 1) (s.addr a).2 m'' Q) : Returns code pc s m Q := by
  refine .next hi ?_ h
  simp only [exec, Action.run, hm, Option.bind_eq_bind, Option.bind_some, hm']

theorem Returns.alu (hi : code[pc]? = some (.alu .x op d n x))
    (h : Returns code (pc + 1) (s.set d (op.eval (s.get n) (s.opnd 64 x))) m Q) :
    Returns code pc s m Q := by
  refine .next hi ?_ h
  rw [exec_alu]
  rfl

theorem Returns.alu_w (hi : code[pc]? = some (.alu .w op d n x)) (h : Returns code (pc + 1)
      (s.set d ((op.eval ((s.get n).setWidth 32) (s.opnd 32 x)).setWidth 64)) m Q) :
    Returns code pc s m Q := by
  refine .next hi ?_ h
  rw [exec_alu_w]
  rfl

theorem Returns.alus (hi : code[pc]? = some (.alus .x op d n x))
    (h : Returns code (pc + 1) { s.set d (op.eval (s.get n) (s.opnd 64 x)) with
      flags := op.flags (s.get n) (s.opnd 64 x) } m Q) : Returns code pc s m Q := by
  refine .next hi ?_ h
  rw [exec_alus]
  rfl

end

end SpringOs.Lib.Arm
