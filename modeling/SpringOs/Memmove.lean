import SpringOs.Lib.ArmMemory

/-!
`memcpy.S` and `memmove.S`, instruction by instruction.

Both copy small pieces until the source is aligned, blocks of 64 bytes in a loop that loads
ahead of its stores, and then the rest by the bits of the count. `memmove` copies downwards where
`memcpy` would overwrite bytes it has yet to read, and jumps to `memcpy` otherwise.

* `Ring`: the blocks that are loaded and not yet stored, with `Ring.load` and `Ring.store`;
* `large`: the loop, by induction on the count;
* `memcpy_copies`: `memcpy`, as long as it does not meet its own stores;
* **`memmove_moves`**: `memmove` moves any block to any other, overlapping or not;
* **`memcpyAsm_agrees`**: `memcpy_asm` of `boot_util.S`, which copies byte by byte, does what
  `memcpy` does.
-/

namespace SpringOs.Memmove
open Lib.Arm

variable {r : Fin 31} {p : Word} {j size : Nat}

/-! ## The code -/

/-- `memcpy`, with its first instruction at `o`. -/
def memcpyAt (o : Nat) : List Instr := [
  .mov .x (.x 6) (.reg (.x 0)),
  .cmp .x (.x 2) (.imm 16),
  .bc .cc (o + 32),
  .neg (.x 4) (.reg (.x 1)),
  .alus .x .and (.x 4) (.x 4) (.imm 15),
  .bc .eq (o + 19),
  .alu .x .sub (.x 2) (.x 2) (.reg (.x 4)),
  .tbz (.x 4) 0 (o + 10),
  .ldr 1 (.x 3) (.post (.x 1) 1),
  .str 1 (.x 3) (.post (.x 6) 1),
  .tbz (.x 4) 1 (o + 13),
  .ldr 2 (.x 3) (.post (.x 1) 2),
  .str 2 (.x 3) (.post (.x 6) 2),
  .tbz (.x 4) 2 (o + 16),
  .ldr 4 (.x 3) (.post (.x 1) 4),
  .str 4 (.x 3) (.post (.x 6) 4),
  .tbz (.x 4) 3 (o + 19),
  .ldr 8 (.x 3) (.post (.x 1) 8),
  .str 8 (.x 3) (.post (.x 6) 8),
  -- 19: .LSrcAligned
  .cmp .x (.x 2) (.imm 64),
  .bc .ge (o + 45),
  -- 21: .Ltail63
  .alus .x .and (.x 3) (.x 2) (.imm 0x30),
  .bc .eq (o + 32),
  .cmp .w (.x 3) (.imm 0x20),
  .bc .eq (o + 28),
  .bc .lt (o + 30),
  .ldp (.x 7) (.x 8) (.post (.x 1) 16),
  .stp (.x 7) (.x 8) (.post (.x 6) 16),
  .ldp (.x 7) (.x 8) (.post (.x 1) 16),
  .stp (.x 7) (.x 8) (.post (.x 6) 16),
  .ldp (.x 7) (.x 8) (.post (.x 1) 16),
  .stp (.x 7) (.x 8) (.post (.x 6) 16),
  -- 32: .Ltiny15
  .tbz (.x 2) 3 (o + 35),
  .ldr 8 (.x 3) (.post (.x 1) 8),
  .str 8 (.x 3) (.post (.x 6) 8),
  .tbz (.x 2) 2 (o + 38),
  .ldr 4 (.x 3) (.post (.x 1) 4),
  .str 4 (.x 3) (.post (.x 6) 4),
  .tbz (.x 2) 1 (o + 41),
  .ldr 2 (.x 3) (.post (.x 1) 2),
  .str 2 (.x 3) (.post (.x 6) 2),
  .tbz (.x 2) 0 (o + 78),
  .ldr 1 (.x 3) (.post (.x 1) 1),
  .str 1 (.x 3) (.post (.x 6) 1),
  .b (o + 78),
  -- 45: .Lcpy_over64
  .alus .x .sub (.x 2) (.x 2) (.imm 128),
  .bc .ge (o + 58),
  .ldp (.x 7) (.x 8) (.post (.x 1) 16),
  .stp (.x 7) (.x 8) (.post (.x 6) 16),
  .ldp (.x 9) (.x 10) (.post (.x 1) 16),
  .ldp (.x 11) (.x 12) (.post (.x 1) 16),
  .stp (.x 9) (.x 10) (.post (.x 6) 16),
  .stp (.x 11) (.x 12) (.post (.x 6) 16),
  .ldp (.x 13) (.x 14) (.post (.x 1) 16),
  .stp (.x 13) (.x 14) (.post (.x 6) 16),
  .tst (.x 2) (.imm 0x3f),
  .bc .ne (o + 21),
  .b (o + 78),
  -- 58: .Lcpy_body_large
  .ldp (.x 7) (.x 8) (.post (.x 1) 16),
  .ldp (.x 9) (.x 10) (.post (.x 1) 16),
  .ldp (.x 11) (.x 12) (.post (.x 1) 16),
  .ldp (.x 13) (.x 14) (.post (.x 1) 16),
  -- 62: 1:
  .stp (.x 7) (.x 8) (.post (.x 6) 16),
  .ldp (.x 7) (.x 8) (.post (.x 1) 16),
  .stp (.x 9) (.x 10) (.post (.x 6) 16),
  .ldp (.x 9) (.x 10) (.post (.x 1) 16),
  .stp (.x 11) (.x 12) (.post (.x 6) 16),
  .ldp (.x 11) (.x 12) (.post (.x 1) 16),
  .stp (.x 13) (.x 14) (.post (.x 6) 16),
  .ldp (.x 13) (.x 14) (.post (.x 1) 16),
  .alus .x .sub (.x 2) (.x 2) (.imm 64),
  .bc .ge (o + 62),
  .stp (.x 7) (.x 8) (.post (.x 6) 16),
  .stp (.x 9) (.x 10) (.post (.x 6) 16),
  .stp (.x 11) (.x 12) (.post (.x 6) 16),
  .stp (.x 13) (.x 14) (.post (.x 6) 16),
  .tst (.x 2) (.imm 0x3f),
  .bc .ne (o + 21),
  -- 78: .Lexitfunc
  .ret]

def memcpy : List Instr := memcpyAt 0

def memmove : List Instr := [
  .cmp .x (.x 0) (.reg (.x 1)),
  .bc .cc 84,
  .alu .x .add (.x 3) (.x 1) (.reg (.x 2)),
  .cmp .x (.x 0) (.reg (.x 3)),
  .bc .cs 84,
  .alu .x .add (.x 6) (.x 0) (.reg (.x 2)),
  .alu .x .add (.x 1) (.x 1) (.reg (.x 2)),
  .cmp .x (.x 2) (.imm 16),
  .bc .cc 37,
  .alus .x .and (.x 4) (.x 1) (.imm 15),
  .bc .eq 24,
  .alu .x .sub (.x 2) (.x 2) (.reg (.x 4)),
  .tbz (.x 4) 0 15,
  .ldr 1 (.x 3) (.pre (.x 1) (-1)),
  .str 1 (.x 3) (.pre (.x 6) (-1)),
  .tbz (.x 4) 1 18,
  .ldr 2 (.x 3) (.pre (.x 1) (-2)),
  .str 2 (.x 3) (.pre (.x 6) (-2)),
  .tbz (.x 4) 2 21,
  .ldr 4 (.x 3) (.pre (.x 1) (-4)),
  .str 4 (.x 3) (.pre (.x 6) (-4)),
  .tbz (.x 4) 3 24,
  .ldr 8 (.x 3) (.pre (.x 1) (-8)),
  .str 8 (.x 3) (.pre (.x 6) (-8)),
  -- 24: .LSrcAligned
  .cmp .x (.x 2) (.imm 64),
  .bc .ge 50,
  -- 26: .Ltail63
  .alus .x .and (.x 3) (.x 2) (.imm 0x30),
  .bc .eq 37,
  .cmp .w (.x 3) (.imm 0x20),
  .bc .eq 33,
  .bc .lt 35,
  .ldp (.x 7) (.x 8) (.pre (.x 1) (-16)),
  .stp (.x 7) (.x 8) (.pre (.x 6) (-16)),
  .ldp (.x 7) (.x 8) (.pre (.x 1) (-16)),
  .stp (.x 7) (.x 8) (.pre (.x 6) (-16)),
  .ldp (.x 7) (.x 8) (.pre (.x 1) (-16)),
  .stp (.x 7) (.x 8) (.pre (.x 6) (-16)),
  -- 37: .Ltail15
  .tbz (.x 2) 3 40,
  .ldr 8 (.x 3) (.pre (.x 1) (-8)),
  .str 8 (.x 3) (.pre (.x 6) (-8)),
  .tbz (.x 2) 2 43,
  .ldr 4 (.x 3) (.pre (.x 1) (-4)),
  .str 4 (.x 3) (.pre (.x 6) (-4)),
  .tbz (.x 2) 1 46,
  .ldr 2 (.x 3) (.pre (.x 1) (-2)),
  .str 2 (.x 3) (.pre (.x 6) (-2)),
  .tbz (.x 2) 0 49,
  .ldr 1 (.x 3) (.off (.x 1) (-1)),
  .str 1 (.x 3) (.off (.x 6) (-1)),
  -- 49: .Lexitfunc
  .ret,
  -- 50: .Lcpy_over64
  .alus .x .sub (.x 2) (.x 2) (.imm 128),
  .bc .ge 63,
  .ldp (.x 7) (.x 8) (.off (.x 1) (-16)),
  .stp (.x 7) (.x 8) (.off (.x 6) (-16)),
  .ldp (.x 9) (.x 10) (.off (.x 1) (-32)),
  .ldp (.x 11) (.x 12) (.off (.x 1) (-48)),
  .stp (.x 9) (.x 10) (.off (.x 6) (-32)),
  .stp (.x 11) (.x 12) (.off (.x 6) (-48)),
  .ldp (.x 13) (.x 14) (.pre (.x 1) (-64)),
  .stp (.x 13) (.x 14) (.pre (.x 6) (-64)),
  .tst (.x 2) (.imm 0x3f),
  .bc .ne 26,
  .ret,
  -- 63: .Lcpy_body_large
  .ldp (.x 7) (.x 8) (.off (.x 1) (-16)),
  .ldp (.x 9) (.x 10) (.off (.x 1) (-32)),
  .ldp (.x 11) (.x 12) (.off (.x 1) (-48)),
  .ldp (.x 13) (.x 14) (.pre (.x 1) (-64)),
  -- 67: 1:
  .stp (.x 7) (.x 8) (.off (.x 6) (-16)),
  .ldp (.x 7) (.x 8) (.off (.x 1) (-16)),
  .stp (.x 9) (.x 10) (.off (.x 6) (-32)),
  .ldp (.x 9) (.x 10) (.off (.x 1) (-32)),
  .stp (.x 11) (.x 12) (.off (.x 6) (-48)),
  .ldp (.x 11) (.x 12) (.off (.x 1) (-48)),
  .stp (.x 13) (.x 14) (.pre (.x 6) (-64)),
  .ldp (.x 13) (.x 14) (.pre (.x 1) (-64)),
  .alus .x .sub (.x 2) (.x 2) (.imm 64),
  .bc .ge 67,
  .stp (.x 7) (.x 8) (.off (.x 6) (-16)),
  .stp (.x 9) (.x 10) (.off (.x 6) (-32)),
  .stp (.x 11) (.x 12) (.off (.x 6) (-48)),
  .stp (.x 13) (.x 14) (.pre (.x 6) (-64)),
  .tst (.x 2) (.imm 0x3f),
  .bc .ne 26,
  .ret] ++ memcpyAt 84

/-! ## What the two share

From the subtraction of the bytes up to the alignment on, the two differ only in how they form
addresses and how they leave. -/

/-- The next access of `size` bytes through a base register. -/
def next (d : Dir) (r : Reg) (size : Nat) : Addr :=
  match d with
  | .up => .post r size
  | .down => .pre r (-size)

/-- The accesses to four blocks of 16 bytes. Downwards only the last one moves the base. -/
def block (d : Dir) (r : Reg) (i : Nat) : Addr :=
  match d with
  | .up => .post r 16
  | .down => if i % 4 = 3 then .pre r (-64) else .off r (-(16 * (i % 4 + 1) : Nat))

def last (d : Dir) (r : Reg) : Addr :=
  match d with
  | .up => .post r 1
  | .down => .off r (-1)

def exit (d : Dir) (o : Nat) : Nat :=
  match d with
  | .up => o + 78
  | .down => o + 44

def leave (d : Dir) (o : Nat) : Instr :=
  match d with
  | .up => .b (o + 78)
  | .down => .ret

def regLo (i : Nat) : Fin 31 := Fin.ofNat 31 (7 + 2 * (i % 4))
def regHi (i : Nat) : Fin 31 := Fin.ofNat 31 (8 + 2 * (i % 4))

def load (d : Dir) (i : Nat) : Instr := .ldp (.x (regLo i)) (.x (regHi i)) (block d (.x 1) i)
def store (d : Dir) (i : Nat) : Instr := .stp (.x (regLo i)) (.x (regHi i)) (block d (.x 6) i)

def body (d : Dir) (o : Nat) : List Instr := [
  .alu .x .sub (.x 2) (.x 2) (.reg (.x 4)),
  .tbz (.x 4) 0 (o + 10), .ldr 1 (.x 3) (next d (.x 1) 1), .str 1 (.x 3) (next d (.x 6) 1),
  .tbz (.x 4) 1 (o + 13), .ldr 2 (.x 3) (next d (.x 1) 2), .str 2 (.x 3) (next d (.x 6) 2),
  .tbz (.x 4) 2 (o + 16), .ldr 4 (.x 3) (next d (.x 1) 4), .str 4 (.x 3) (next d (.x 6) 4),
  .tbz (.x 4) 3 (o + 19), .ldr 8 (.x 3) (next d (.x 1) 8), .str 8 (.x 3) (next d (.x 6) 8),
  .cmp .x (.x 2) (.imm 64),
  .bc .ge (o + 45),
  .alus .x .and (.x 3) (.x 2) (.imm 0x30),
  .bc .eq (o + 32),
  .cmp .w (.x 3) (.imm 0x20),
  .bc .eq (o + 28),
  .bc .lt (o + 30),
  .ldp (.x 7) (.x 8) (next d (.x 1) 16), .stp (.x 7) (.x 8) (next d (.x 6) 16),
  .ldp (.x 7) (.x 8) (next d (.x 1) 16), .stp (.x 7) (.x 8) (next d (.x 6) 16),
  .ldp (.x 7) (.x 8) (next d (.x 1) 16), .stp (.x 7) (.x 8) (next d (.x 6) 16),
  .tbz (.x 2) 3 (o + 35), .ldr 8 (.x 3) (next d (.x 1) 8), .str 8 (.x 3) (next d (.x 6) 8),
  .tbz (.x 2) 2 (o + 38), .ldr 4 (.x 3) (next d (.x 1) 4), .str 4 (.x 3) (next d (.x 6) 4),
  .tbz (.x 2) 1 (o + 41), .ldr 2 (.x 3) (next d (.x 1) 2), .str 2 (.x 3) (next d (.x 6) 2),
  .tbz (.x 2) 0 (exit d o), .ldr 1 (.x 3) (last d (.x 1)), .str 1 (.x 3) (last d (.x 6)),
  leave d o,
  .alus .x .sub (.x 2) (.x 2) (.imm 128),
  .bc .ge (o + 58),
  load d 0, store d 0, load d 1, load d 2, store d 1, store d 2, load d 3, store d 3,
  .tst (.x 2) (.imm 0x3f),
  .bc .ne (o + 21),
  leave d o,
  load d 0, load d 1, load d 2, load d 3,
  store d 0, load d 0, store d 1, load d 1, store d 2, load d 2, store d 3, load d 3,
  .alus .x .sub (.x 2) (.x 2) (.imm 64),
  .bc .ge (o + 62),
  store d 0, store d 1, store d 2, store d 3,
  .tst (.x 2) (.imm 0x3f),
  .bc .ne (o + 21),
  .ret]

theorem memcpyAt_eq (o : Nat) : memcpyAt o = (memcpyAt o).take 6 ++ body .up o := rfl

theorem memmove_eq : memmove = memmove.take 11 ++ (body .down 5 ++ memcpyAt 84) := rfl

/-! ## Blocks in flight

The registers of the four blocks are a ring: `a` blocks are stored, `b` are loaded, and those
in between are in the registers. -/

/-- The offset in the base register before block `j`, counted from `k` bytes on. -/
def base (d : Dir) (n k j : Nat) : Nat :=
  match d with
  | .up => k + 16 * j
  | .down => n - (k + 64 * (j / 4))

section
variable (d : Dir) (m : Mem) (dst src : Word) (n : Nat)

/-- Block `j` is in its registers. -/
def Held (s : Core) (k j : Nat) : Prop :=
  read m 8 (src + BitVec.ofNat 64 (d.pos n (k + 16 * j) 16)) = some (s.x (regLo j)) ∧
  read m 8 (src + BitVec.ofNat 64 (d.pos n (k + 16 * j) 16) + 8) = some (s.x (regHi j))

structure Ring (k a b : Nat) (count align : Word) (s : Core) : Prop where
  x0 : s.x 0 = dst
  x1 : s.x 1 = src + BitVec.ofNat 64 (base d n k b)
  x2 : s.x 2 = count
  x4 : s.x 4 = align
  x6 : s.x 6 = dst + BitVec.ofNat 64 (base d n k a)
  held : ∀ j, a ≤ j → j < b → Held d m src n s k j

structure Input : Prop where
  source : Mapped m src n
  target : Mapped m dst n
  small : n < 2 ^ 63
  safe : d.Safe dst src n

end

variable {d : Dir} {m : Mem} {dst src : Word} {n k a b o pc : Nat} {count align : Word}
  {s : Core} {code : List Instr} {Q : Core → Mem → Prop}

theorem Ring.shift (h : Ring d m dst src n k (a + 4) (b + 4) count align s) :
    Ring d m dst src n (k + 64) a b count align s := by
  have hbase : ∀ j, base d n k (j + 4) = base d n (k + 64) j := by
    intro j
    cases d <;> simp only [base] <;> omega
  refine ⟨h.x0, hbase b ▸ h.x1, h.x2, h.x4, hbase a ▸ h.x6, fun j ha hb => ?_⟩
  have hj := h.held (j + 4) (by omega) (by omega)
  have hlo : regLo (j + 4) = regLo j := by simp only [regLo, Nat.add_mod_right]
  have hhi : regHi (j + 4) = regHi j := by simp only [regHi, Nat.add_mod_right]
  rw [Held, hlo, hhi, show k + 16 * (j + 4) = k + 64 + 16 * j by omega] at hj
  exact hj

theorem add_ofInt_neg (p : Word) {x y : Nat} (h : x ≤ y) :
    p + BitVec.ofNat 64 y + BitVec.ofInt 64 (-(x : Nat)) = p + BitVec.ofNat 64 (y - x) := by
  obtain ⟨z, rfl⟩ := Nat.exists_eq_add_of_le h
  rw [BitVec.ofInt_neg, BitVec.ofInt_natCast, Nat.add_sub_cancel_left, Nat.add_comm,
    ← add_ofNat_add, BitVec.add_neg_eq_sub, BitVec.add_sub_cancel]

theorem set_same {v : Word} (h : s.x r = v) : s.set (.x r) v = s := by
  subst h
  simp only [Core.set, Function.update_eq_self]

theorem addr_block (hk : k + 64 * (j / 4) + 64 ≤ n)
    (hr : s.x r = p + BitVec.ofNat 64 (base d n k j)) :
    s.addr (block d (.x r) j) = (p + BitVec.ofNat 64 (d.pos n (k + 16 * j) 16),
      s.set (.x r) (p + BitVec.ofNat 64 (base d n k (j + 1)))) := by
  cases d with
  | up =>
    have hnext : s.x r + BitVec.ofInt 64 16 = p + BitVec.ofNat 64 (base .up n k (j + 1)) := by
      rw [hr, show BitVec.ofInt 64 16 = BitVec.ofNat 64 16 from rfl, add_ofNat_add]
      rfl
    simp only [block, Core.addr, Core.get_x, hnext, Prod.mk.injEq, and_true]
    exact hr
  | down =>
    by_cases h3 : j % 4 = 3
    · have hnext : s.x r + BitVec.ofInt 64 (-64) =
          p + BitVec.ofNat 64 (base .down n k (j + 1)) := by
        have hle : 64 ≤ base .down n k j := by simp only [base]; omega
        have heq : base .down n k j - 64 = base .down n k (j + 1) := by simp only [base]; omega
        rw [hr, ← heq]
        exact add_ofInt_neg p hle
      have hpos : Dir.pos .down n (k + 16 * j) 16 = base .down n k (j + 1) := by
        simp only [base, Dir.pos]
        omega
      simp only [block, if_pos h3, Core.addr, Core.get_x, hnext, hpos]
    · have hnext : s.x r + BitVec.ofInt 64 (-(16 * (j % 4 + 1) : Nat)) =
          p + BitVec.ofNat 64 (Dir.pos .down n (k + 16 * j) 16) := by
        have hle : 16 * (j % 4 + 1) ≤ base .down n k j := by simp only [base]; omega
        have heq : base .down n k j - 16 * (j % 4 + 1) = Dir.pos .down n (k + 16 * j) 16 := by
          simp only [base, Dir.pos]
          omega
        rw [hr, ← heq]
        exact add_ofInt_neg p hle
      have hbase : base .down n k j = base .down n k (j + 1) := by simp only [base]; omega
      -- Nothing is written back here.
      rw [set_same (hbase ▸ hr)]
      simp only [block, if_neg h3, Core.addr, Core.get_x, hnext]

theorem regLo_val (j : Nat) : (regLo j).val = 7 + 2 * (j % 4) := by
  simp only [regLo, Fin.ofNat]
  omega

theorem regHi_val (j : Nat) : (regHi j).val = 8 + 2 * (j % 4) := by
  simp only [regHi, Fin.ofNat]
  omega

theorem low_ne_regs (h : r.val < 7) (j : Nat) : r ≠ regLo j ∧ r ≠ regHi j := by
  have hl := regLo_val j
  have hh := regHi_val j
  constructor <;> rintro rfl <;> omega

theorem regs_ne_regs {i : Nat} (h : i % 4 ≠ j % 4) :
    regLo i ≠ regLo j ∧ regLo i ≠ regHi j ∧ regHi i ≠ regLo j ∧ regHi i ≠ regHi j := by
  simp only [Ne, Fin.ext_iff, regLo_val, regHi_val]
  omega

theorem regLo_ne_regHi (j : Nat) : regLo j ≠ regHi j := by
  rw [Ne, Fin.ext_iff, regLo_val, regHi_val]
  omega

theorem pos_le (hk : k + size ≤ n) : d.pos n k size + size ≤ n := by
  cases d <;> simp only [Dir.pos] <;> omega

theorem Input.readBlock (hin : Input d m dst src n) (hk : k ≤ j) (hj : j + 16 ≤ n) :
    ∃ v w, (read m 8 (src + BitVec.ofNat 64 (d.pos n j 16)) = some v ∧
        read m 8 (src + BitVec.ofNat 64 (d.pos n j 16) + 8) = some w) ∧
      read (d.done m dst src n k) 8 (src + BitVec.ofNat 64 (d.pos n j 16)) = some v ∧
      read (d.done m dst src n k) 8 (src + BitVec.ofNat 64 (d.pos n j 16) + 8) = some w := by
  have hsrc := hin.source.sub (pos_le (d := d) hj)
  obtain ⟨v, hv⟩ := exists_read (n := 8) (hsrc.sub (j := 0) (by omega))
  obtain ⟨w, hw⟩ := exists_read (n := 8) (hsrc.sub (j := 8) (by omega))
  rw [BitVec.add_zero] at hv
  refine ⟨v, w, ⟨hv, hw⟩, ?_, ?_⟩
  · rw [Dir.read_done hin.safe hk hj (Nat.le_refl _) (by omega), hv]
  · change read _ 8 (_ + BitVec.ofNat 64 8) = _
    rw [add_ofNat_add] at hw ⊢
    rw [Dir.read_done hin.safe hk hj (by omega) (by omega), hw]

theorem Input.writeBlock {v w : Word} (hin : Input d m dst src n) (hk : k + 16 ≤ n)
    (h : read m 8 (src + BitVec.ofNat 64 (d.pos n k 16)) = some v ∧
      read m 8 (src + BitVec.ofNat 64 (d.pos n k 16) + 8) = some w) :
    ∃ m1, write (d.done m dst src n k) 8 (dst + BitVec.ofNat 64 (d.pos n k 16)) v = some m1 ∧
      write m1 8 (dst + BitVec.ofNat 64 (d.pos n k 16) + 8) w =
        some (d.done m dst src n (k + 16)) := by
  have hpos := pos_le (d := d) hk
  have hdone : Mapped (d.done m dst src n k) (dst + BitVec.ofNat 64 (d.pos n k 16)) 16 :=
    hin.source.done (by omega) (hin.target.sub hpos)
  obtain ⟨m1, hlo, hhi⟩ := write_pair h.1 h.2 hdone (hin.source.sub hpos)
  rw [Dir.paste_done hk (by have := hin.small; omega)] at hhi
  exact ⟨m1, hlo, hhi⟩

/-- **Load a block** while its registers are free. -/
theorem Ring.load (hin : Input d m dst src n) (h : Ring d m dst src n k a b count align s)
    (hi : code[pc]? = some (load d b)) (hab : a ≤ b) (hb : b < a + 4)
    (hk : k + 64 * (b / 4) + 64 ≤ n)
    (hQ : ∀ s', Ring d m dst src n k a (b + 1) count align s' →
      Returns code (pc + 1) s' (d.done m dst src n (k + 16 * a)) Q) :
    Returns code pc s (d.done m dst src n (k + 16 * a)) Q := by
  have haddr := addr_block (d := d) hk h.x1
  obtain ⟨v, w, ⟨hv, hw⟩, hlo, hhi⟩ := hin.readBlock (k := k + 16 * a) (j := k + 16 * b)
    (by omega) (by omega)
  refine .ldp hi (by rw [haddr]; exact hlo) (by rw [haddr]; exact hhi) (hQ _ ?_)
  rw [haddr]
  have hne : ∀ i : Fin 31, i ≠ 1 → i ≠ regLo b → i ≠ regHi b →
      (((s.set (.x 1) (src + BitVec.ofNat 64 (base d n k (b + 1)))).set (.x (regLo b)) v).set
        (.x (regHi b)) w).x i = s.x i := by
    intro i h1 h2 h3
    rw [Core.set_x_ne _ _ _ _ h3, Core.set_x_ne _ _ _ _ h2, Core.set_x_ne _ _ _ _ h1]
  have hlow : ∀ i : Fin 31, i.val < 7 → i ≠ 1 →
      (((s.set (.x 1) (src + BitVec.ofNat 64 (base d n k (b + 1)))).set (.x (regLo b)) v).set
        (.x (regHi b)) w).x i = s.x i := fun i hi h1 =>
    hne i h1 (low_ne_regs hi b).1 (low_ne_regs hi b).2
  obtain ⟨h1lo, h1hi⟩ := low_ne_regs (r := 1) (by decide) b
  constructor
  · rw [hlow 0 (by decide) (by decide), h.x0]
  · rw [Core.set_x_ne _ _ _ _ h1hi, Core.set_x_ne _ _ _ _ h1lo, Core.set_x_self]
  · rw [hlow 2 (by decide) (by decide), h.x2]
  · rw [hlow 4 (by decide) (by decide), h.x4]
  · rw [hlow 6 (by decide) (by decide), h.x6]
  · intro j ha hj
    by_cases hjb : j = b
    · subst hjb
      refine ⟨?_, ?_⟩
      · rw [Core.set_x_ne _ _ _ _ (regLo_ne_regHi j), Core.set_x_self, hv]
      · rw [Core.set_x_self]
        exact hw
    · obtain ⟨hll, hlh, hhl, hhh⟩ := regs_ne_regs (i := j) (j := b) (by omega)
      obtain ⟨hjlo, hjhi⟩ := low_ne_regs (r := 1) (by decide) j
      rw [Held, hne _ hjlo.symm hll hlh, hne _ hjhi.symm hhl hhh]
      exact h.held j ha (by omega)

/-- **Store the oldest block.** -/
theorem Ring.store (hin : Input d m dst src n) (h : Ring d m dst src n k a b count align s)
    (hi : code[pc]? = some (store d a)) (hab : a < b) (hk : k + 64 * (a / 4) + 64 ≤ n)
    (hQ : ∀ s', Ring d m dst src n k (a + 1) b count align s' →
      Returns code (pc + 1) s' (d.done m dst src n (k + 16 * (a + 1))) Q) :
    Returns code pc s (d.done m dst src n (k + 16 * a)) Q := by
  have haddr := addr_block (d := d) hk h.x6
  obtain ⟨m1, hlo, hhi⟩ := hin.writeBlock (k := k + 16 * a) (by omega)
    (h.held a (Nat.le_refl a) hab)
  refine .stp hi (by rw [haddr]; exact hlo) (by rw [haddr]; exact hhi) ?_
  rw [haddr]
  refine hQ _ ⟨?_, ?_, ?_, ?_, Core.set_x_self .., fun j ha hj => ?_⟩
  · rw [Core.set_x_ne _ _ _ _ (by decide), h.x0]
  · rw [Core.set_x_ne _ _ _ _ (by decide), h.x1]
  · rw [Core.set_x_ne _ _ _ _ (by decide), h.x2]
  · rw [Core.set_x_ne _ _ _ _ (by decide), h.x4]
  · obtain ⟨hlo, hhi⟩ := low_ne_regs (r := 6) (by decide) j
    rw [Held, Core.set_x_ne _ _ _ _ hlo.symm, Core.set_x_ne _ _ _ _ hhi.symm]
    exact h.held j (by omega) hj

/-! ## Small pieces -/

abbrev Cursor (d : Dir) (m : Mem) (dst src : Word) (n k : Nat) := Ring d m dst src n k 0 0

theorem addr_next (hk : k + size ≤ n) (hr : s.x r = p + BitVec.ofNat 64 (base d n k 0)) :
    s.addr (next d (.x r) size) = (p + BitVec.ofNat 64 (d.pos n k size),
      s.set (.x r) (p + BitVec.ofNat 64 (base d n (k + size) 0))) := by
  cases d with
  | up =>
    have hnext : s.x r + BitVec.ofInt 64 size = p + BitVec.ofNat 64 (base .up n (k + size) 0) := by
      rw [hr, BitVec.ofInt_natCast, add_ofNat_add]
      rfl
    simp only [next, Core.addr, Core.get_x, hnext, Prod.mk.injEq, and_true]
    exact hr
  | down =>
    have hnext : s.x r + BitVec.ofInt 64 (-(size : Nat)) =
        p + BitVec.ofNat 64 (base .down n (k + size) 0) := by
      have hle : size ≤ base .down n k 0 := by simp only [base]; omega
      have heq : base .down n k 0 - size = base .down n (k + size) 0 := by simp only [base]; omega
      rw [hr, ← heq]
      exact add_ofInt_neg p hle
    have hpos : Dir.pos .down n k size = base .down n (k + size) 0 := by
      simp only [base, Dir.pos]
      omega
    simp only [next, Core.addr, Core.get_x, hnext, hpos]

/-- The last byte is at the same address whether or not the base moves. -/
theorem addr_last (hk : k + 1 ≤ n) (hr : s.x r = p + BitVec.ofNat 64 (base d n k 0)) :
    (s.addr (last d (.x r))).1 = p + BitVec.ofNat 64 (d.pos n k 1) := by
  have hnext : (s.addr (last d (.x r))).1 = (s.addr (next d (.x r) 1)).1 := by cases d <;> rfl
  rw [hnext, addr_next hk hr]

theorem addr_last_x {i : Fin 31} (h : i ≠ r) : (s.addr (last d (.x r))).2.x i = s.x i := by
  cases d with
  | up => exact Core.set_x_ne _ _ _ _ h
  | down => rfl

theorem Input.piece (hin : Input d m dst src n) (hk : k + size ≤ n) (h8 : size ≤ 8) :
    ∃ v, read (d.done m dst src n k) size (src + BitVec.ofNat 64 (d.pos n k size)) = some v ∧
      write (d.done m dst src n k) size (dst + BitVec.ofNat 64 (d.pos n k size)) v =
        some (d.done m dst src n (k + size)) := by
  have hpos := pos_le (d := d) hk
  obtain ⟨v, hv⟩ := exists_read (hin.source.sub hpos)
  refine ⟨v, ?_, ?_⟩
  · rw [Dir.read_done hin.safe (Nat.le_refl k) hk (Nat.le_refl _) (Nat.le_refl _), hv]
  · rw [write_read hv h8 (hin.source.done (by omega) (hin.target.sub hpos)),
      Dir.paste_done hk (by have := hin.small; omega)]

theorem Ring.piece (hin : Input d m dst src n) (h : Cursor d m dst src n k count align s)
    (h8 : size ≤ 8) (hldr : code[pc]? = some (.ldr size (.x 3) (next d (.x 1) size)))
    (hstr : code[pc + 1]? = some (.str size (.x 3) (next d (.x 6) size))) (hk : k + size ≤ n)
    (hQ : ∀ s', Cursor d m dst src n (k + size) count align s' →
      Returns code (pc + 2) s' (d.done m dst src n (k + size)) Q) :
    Returns code pc s (d.done m dst src n k) Q := by
  obtain ⟨v, hv, hw⟩ := hin.piece hk h8
  have haddr := addr_next (d := d) hk h.x1
  refine .ldr hldr (by rw [haddr]; exact hv) ?_
  rw [haddr]
  have h6 : ((s.set (.x 1) (src + BitVec.ofNat 64 (base d n (k + size) 0))).set (.x 3) v).x 6 =
      dst + BitVec.ofNat 64 (base d n k 0) := by
    simp [h.x6]
  have haddr' := addr_next (d := d) hk h6
  refine .str hstr (by rw [haddr']; simpa using hw) ?_
  rw [haddr']
  refine hQ _ ⟨?_, ?_, ?_, ?_, Core.set_x_self .., fun j _ hj => absurd hj (Nat.not_lt_zero j)⟩
  · simp [h.x0]
  · simp
  · simp [h.x2]
  · simp [h.x4]

/-- How many bytes a bit of the count stands for. -/
def bitLen (w : Word) (bit : Nat) : Nat := w.toNat / 2 ^ bit % 2 * 2 ^ bit

theorem getLsbD_eq (w : Word) (bit : Nat) :
    w.getLsbD bit = decide (w.toNat / 2 ^ bit % 2 = 1) := by
  rw [BitVec.getLsbD, Nat.testBit_eq_decide_div_mod_eq]

theorem Ring.bit {w : Word} (bit : Nat) (hin : Input d m dst src n)
    (h : Cursor d m dst src n k count align s) (hr : s.x r = w) (h8 : 2 ^ bit ≤ 8)
    (htbz : code[pc]? = some (.tbz (.x r) bit (pc + 3)))
    (hldr : code[pc + 1]? = some (.ldr (2 ^ bit) (.x 3) (next d (.x 1) (2 ^ bit))))
    (hstr : code[pc + 2]? = some (.str (2 ^ bit) (.x 3) (next d (.x 6) (2 ^ bit))))
    (hk : k + bitLen w bit ≤ n) (hQ : ∀ s', Cursor d m dst src n (k + bitLen w bit) count align s' →
      Returns code (pc + 3) s' (d.done m dst src n (k + bitLen w bit)) Q) :
    Returns code pc s (d.done m dst src n k) Q := by
  refine .branch htbz rfl (fun ht => ?_) (fun hf => ?_)
  · have hzero : bitLen w bit = 0 := by
      rw [Core.get_x, hr, getLsbD_eq, Bool.not_eq_true', decide_eq_false_iff_not] at ht
      rw [bitLen, show w.toNat / 2 ^ bit % 2 = 0 by omega, Nat.zero_mul]
    rw [hzero, Nat.add_zero] at hQ
    exact hQ s h
  · have hone : bitLen w bit = 2 ^ bit := by
      rw [Core.get_x, hr, getLsbD_eq, Bool.not_eq_false', decide_eq_true_iff] at hf
      rw [bitLen, hf, Nat.one_mul]
    rw [hone] at hk hQ
    exact h.piece hin h8 hldr hstr hk hQ

theorem Ring.pair (hin : Input d m dst src n) (h : Cursor d m dst src n k count align s)
    (hldp : code[pc]? = some (.ldp (.x 7) (.x 8) (next d (.x 1) 16)))
    (hstp : code[pc + 1]? = some (.stp (.x 7) (.x 8) (next d (.x 6) 16))) (hk : k + 16 ≤ n)
    (hQ : ∀ s', Cursor d m dst src n (k + 16) count align s' →
      Returns code (pc + 2) s' (d.done m dst src n (k + 16)) Q) :
    Returns code pc s (d.done m dst src n k) Q := by
  obtain ⟨v, w, hvw, hlo, hhi⟩ := hin.readBlock (Nat.le_refl k) hk
  obtain ⟨m1, hwlo, hwhi⟩ := hin.writeBlock hk hvw
  have haddr := addr_next (d := d) hk h.x1
  refine .ldp hldp (by rw [haddr]; exact hlo) (by rw [haddr]; exact hhi) ?_
  rw [haddr]
  have h6 : (((s.set (.x 1) (src + BitVec.ofNat 64 (base d n (k + 16) 0))).set (.x 7) v).set
      (.x 8) w).x 6 = dst + BitVec.ofNat 64 (base d n k 0) := by
    simp [h.x6]
  have haddr' := addr_next (d := d) hk h6
  refine .stp hstp (by rw [haddr']; simpa using hwlo) (by rw [haddr']; simpa using hwhi) ?_
  rw [haddr']
  refine hQ _ ⟨?_, ?_, ?_, ?_, Core.set_x_self .., fun j _ hj => absurd hj (Nat.not_lt_zero j)⟩
  · simp [h.x0]
  · simp
  · simp [h.x2]
  · simp [h.x4]

/-! ## The tails -/

theorem and_mask (w : Word) (bits mask : Nat) (hmask : mask < 2 ^ bits) (hbits : bits ≤ 64) :
    (w &&& BitVec.ofNat 64 mask).toNat = w.toNat % 2 ^ bits &&& mask := by
  have hlt : mask < 2 ^ 64 := Nat.lt_of_lt_of_le hmask (Nat.pow_le_pow_right (by decide) hbits)
  rw [BitVec.toNat_and, BitVec.toNat_ofNat, Nat.mod_eq_of_lt hlt]
  apply Nat.eq_of_testBit_eq
  intro i
  rw [Nat.testBit_and, Nat.testBit_and, Nat.testBit_mod_two_pow]
  by_cases hi : i < bits
  · simp [hi]
  · have : mask.testBit i = false := Nat.testBit_lt_two_pow
      (Nat.lt_of_lt_of_le hmask (Nat.pow_le_pow_right (by decide) (by omega)))
    simp [this]

theorem and_0x30 (w : Word) : (w &&& 0x30#64).toNat = w.toNat % 64 / 16 * 16 := by
  have hall : ∀ r < 64, r &&& 0x30 = r / 16 * 16 := by decide
  rw [and_mask w 6 0x30 (by decide) (by decide)]
  exact hall _ (Nat.mod_lt _ (by decide))

theorem and_0x3f (w : Word) : (w &&& 0x3f#64).toNat = w.toNat % 64 := by
  rw [and_mask w 6 0x3f (by decide) (by decide)]
  exact (Nat.and_two_pow_sub_one_eq_mod _ 6).trans (Nat.mod_mod _ _)

theorem and_15 (w : Word) : (w &&& 15#64).toNat = w.toNat % 16 := by
  rw [and_mask w 4 15 (by decide) (by decide)]
  exact (Nat.and_two_pow_sub_one_eq_mod _ 4).trans (Nat.mod_mod _ _)

theorem Ring.frame {count' : Word} {s' : Core} (h : Ring d m dst src n k a b count align s)
    (hx : ∀ i, i ≠ 2 → i ≠ 3 → s'.x i = s.x i) (h2 : s'.x 2 = count') :
    Ring d m dst src n k a b count' align s' := by
  refine ⟨?_, ?_, h2, ?_, ?_, fun j ha hb => ?_⟩
  · rw [hx 0 (by decide) (by decide), h.x0]
  · rw [hx 1 (by decide) (by decide), h.x1]
  · rw [hx 4 (by decide) (by decide), h.x4]
  · rw [hx 6 (by decide) (by decide), h.x6]
  · obtain ⟨hlo2, hhi2⟩ := low_ne_regs (r := 2) (by decide) j
    obtain ⟨hlo3, hhi3⟩ := low_ne_regs (r := 3) (by decide) j
    rw [Held, hx _ hlo2.symm hlo3.symm, hx _ hhi2.symm hhi3.symm]
    exact h.held j ha hb

/-- The code has the shared part at `o`. -/
def Code (d : Dir) (code : List Instr) (o : Nat) : Prop :=
  ∀ i, 6 ≤ i → i < 79 → code[o + i]? = (body d o)[i - 6]?

theorem Code.at (hcode : Code d code o) (i : Nat) (h : decide (6 ≤ i ∧ i < 79) = true) :
    code[o + i]? = (body d o)[i - 6]? :=
  hcode i (of_decide_eq_true h).1 (of_decide_eq_true h).2

/-- The block is copied, and `x0` is where to. -/
def Moved (m : Mem) (dst src : Word) (n : Nat) (s : Core) (m' : Mem) : Prop :=
  s.x 0 = dst ∧ ∀ c, m' c = if (c - dst).toNat < n then m (src + (c - dst)) else m c

theorem moved_done (hx0 : s.x 0 = dst) : Moved m dst src n s (d.done m dst src n n) := by
  refine ⟨hx0, fun c => ?_⟩
  rw [Dir.done_all]
  simp only [copied, Nat.zero_le, true_and]

theorem leave_moved (hcode : Code d code o) (hi : code[pc]? = some (leave d o))
    (hx0 : s.x 0 = dst) :
    Returns code pc s (d.done m dst src n n) (Moved m dst src n) := by
  cases d with
  | up => exact .goto hi rfl (.ret (hcode.at 78 rfl) (moved_done hx0))
  | down => exact .ret hi (moved_done hx0)

theorem exit_moved (hcode : Code d code o) (hx0 : s.x 0 = dst) :
    Returns code (exit d o) s (d.done m dst src n n) (Moved m dst src n) := by
  cases d with
  | up => exact .ret (hcode.at 78 rfl) (moved_done hx0)
  | down => exact .ret (hcode.at 44 rfl) (moved_done hx0)

section

variable (hin : Input d m dst src n) (hcode : Code d code o)
  (h : Cursor d m dst src n k count align s)
include hin hcode h

theorem Ring.last (hk : k + 1 = n) :
    Returns code (o + 42) s (d.done m dst src n k) (Moved m dst src n) := by
  obtain ⟨v, hv, hw⟩ := hin.piece (show k + 1 ≤ n by omega) (by decide)
  refine .ldr (hcode.at 42 rfl) (by rw [addr_last (by omega) h.x1]; exact hv) ?_
  have h6 : ((s.addr (Memmove.last d (.x 1))).2.set (.x 3) v).x 6 =
      dst + BitVec.ofNat 64 (base d n k 0) := by
    rw [Core.set_x_ne _ _ _ _ (by decide), addr_last_x (by decide), h.x6]
  refine .str (hcode.at 43 rfl)
    (by rw [addr_last (by omega) h6, Core.get_x, Core.set_x_self]; exact hw) ?_
  rw [hk]
  refine leave_moved hcode (hcode.at 44 rfl) ?_
  rw [addr_last_x (by decide), Core.set_x_ne _ _ _ _ (by decide), addr_last_x (by decide), h.x0]

/-- **The last bytes**, by the low bits of the count. -/
theorem tail15 (hk : k + count.toNat % 16 = n) :
    Returns code (o + 32) s (d.done m dst src n k) (Moved m dst src n) := by
  have h8 : bitLen count 3 = count.toNat / 8 % 2 * 8 := rfl
  have h4 : bitLen count 2 = count.toNat / 4 % 2 * 4 := rfl
  have h2 : bitLen count 1 = count.toNat / 2 % 2 * 2 := rfl
  refine h.bit 3 hin h.x2 (by decide) (hcode.at 32 rfl) (hcode.at 33 rfl) (hcode.at 34 rfl)
    (by omega) fun s1 hs1 => ?_
  refine hs1.bit 2 hin hs1.x2 (by decide) (hcode.at 35 rfl) (hcode.at 36 rfl) (hcode.at 37 rfl)
    (by omega) fun s2 hs2 => ?_
  refine hs2.bit 1 hin hs2.x2 (by decide) (hcode.at 38 rfl) (hcode.at 39 rfl) (hcode.at 40 rfl)
    (by omega) fun s3 hs3 => ?_
  have hlast : count.getLsbD 0 = decide (count.toNat % 2 = 1) := by
    rw [getLsbD_eq, Nat.pow_zero, Nat.div_one]
  generalize hk3 : k + bitLen count 3 + bitLen count 2 + bitLen count 1 = k3 at hs3
  refine .branch (hcode.at 41 rfl) rfl (fun ht => ?_) (fun hf => ?_)
  · rw [Core.get_x, hs3.x2, hlast, Bool.not_eq_true', decide_eq_false_iff_not] at ht
    obtain rfl : k3 = n := by omega
    exact exit_moved hcode hs3.x0
  · rw [Core.get_x, hs3.x2, hlast, Bool.not_eq_false', decide_eq_true_iff] at hf
    obtain rfl : k3 + 1 = n := by omega
    exact hs3.last hin hcode rfl

theorem tail31 (hk : k + 16 + count.toNat % 16 = n) :
    Returns code (o + 30) s (d.done m dst src n k) (Moved m dst src n) :=
  h.pair hin (hcode.at 30 rfl) (hcode.at 31 rfl) (by omega) fun _ h' => tail15 hin hcode h' hk

theorem tail47 (hk : k + 32 + count.toNat % 16 = n) :
    Returns code (o + 28) s (d.done m dst src n k) (Moved m dst src n) :=
  h.pair hin (hcode.at 28 rfl) (hcode.at 29 rfl) (by omega) fun _ h' =>
    tail31 hin hcode h' (by omega)

/-- **Up to 63 bytes**, by the low six bits of the count. -/
theorem tail63 (hk : k + count.toNat % 64 = n) :
    Returns code (o + 21) s (d.done m dst src n k) (Moved m dst src n) := by
  have hand := and_0x30 count
  refine .alus (hcode.at 21 rfl) ?_
  simp only [Alu.eval, Alu.flags, Core.get_x, Core.opnd_imm, h.x2]
  generalize count &&& 0x30#64 = x3 at hand
  have h1 : Cursor d m dst src n k count align
      { s.set (.x 3) x3 with flags := ⟨x3.msb, x3 == 0, false, false⟩ } :=
    h.frame (fun i _ h3 => Core.set_x_ne s 3 i x3 h3)
      ((Core.set_x_ne s 3 2 x3 (by decide)).trans h.x2)
  refine .branch (hcode.at 22 rfl) rfl (fun ht => ?_) (fun hf => ?_)
  · have hzero : x3 = 0 := beq_iff_eq.1 ht
    rw [hzero, BitVec.ofNat_eq_ofNat, BitVec.toNat_ofNat, Nat.zero_mod] at hand
    exact tail15 hin hcode h1 (by omega)
  have hne : x3.toNat ≠ 0 := fun he => beq_eq_false_iff_ne.1 hf (BitVec.eq_of_toNat_eq he)
  -- The comparison is of the low half, which holds all of `x3`.
  have hw : (x3.setWidth 32).toNat = x3.toNat := by
    rw [BitVec.toNat_setWidth]
    exact Nat.mod_eq_of_lt (by omega)
  refine .next (hcode.at 23 rfl) rfl ?_
  simp only [Core.get_x, Core.set_x_self, Core.set_zr, Width.bits, Alu.flags, Core.opnd_imm]
  generalize x3.setWidth 32 = w3 at hw
  have h2 : Cursor d m dst src n k count align { s.set (.x 3) x3 with
      flags := subFlags w3 0x20#32 } :=
    h.frame (fun i _ h3 => Core.set_x_ne s 3 i x3 h3)
      ((Core.set_x_ne s 3 2 x3 (by decide)).trans h.x2)
  refine .branch (hcode.at 24 rfl) rfl (fun ht => ?_) (fun hf' => ?_)
  · rw [holds_eq, decide_eq_true_iff] at ht
    have : w3.toNat = 0x20 := by rw [ht]; rfl
    exact tail47 hin hcode h2 (by omega)
  rw [holds_eq, decide_eq_false_iff_not] at hf'
  have hne2 : w3.toNat ≠ 0x20 := fun he => hf' (BitVec.eq_of_toNat_eq he)
  have hlt := holds_lt_w (p := w3) (q := 0x20#32) (by omega) (by decide)
  rw [show (0x20#32).toNat = 0x20 from rfl] at hlt
  refine .branch (hcode.at 25 rfl) rfl (fun ht => ?_) (fun hf'' => ?_)
  · rw [hlt, decide_eq_true_iff] at ht
    exact tail31 hin hcode h2 (by omega)
  · rw [hlt, decide_eq_false_iff_not] at hf''
    exact h2.pair hin (hcode.at 26 rfl) (hcode.at 27 rfl)
      (by omega) fun _ h' => tail47 hin hcode h' (by omega)

/-! ## Blocks of 64 bytes -/

theorem rest {q : Nat} (hk : k + count.toNat % 64 = n)
    (htst : code[q]? = some (.tst (.x 2) (.imm 0x3f)))
    (hbne : code[q + 1]? = some (.bc .ne (o + 21)))
    (hend : ∀ s', s'.x 0 = dst →
      Returns code (q + 2) s' (d.done m dst src n n) (Moved m dst src n)) :
    Returns code q s (d.done m dst src n k) (Moved m dst src n) := by
  have hand := and_0x3f count
  refine .alus htst ?_
  simp only [Alu.eval, Alu.flags, Core.get_x, Core.opnd_imm, Core.set_zr, h.x2]
  generalize count &&& 0x3f#64 = low at hand
  have h1 : Cursor d m dst src n k count align
      { s with flags := ⟨low.msb, low == 0, false, false⟩ } := h.frame (fun _ _ _ => rfl) h.x2
  refine .branch hbne rfl (fun _ => tail63 hin hcode h1 hk) (fun hf => ?_)
  have hzero : low = 0 := by simpa [Cond.holds] using hf
  rw [hzero, BitVec.ofNat_eq_ofNat, BitVec.toNat_ofNat, Nat.zero_mod] at hand
  obtain rfl : k = n := by omega
  exact hend _ h1.x0

end

section

variable (hin : Input d m dst src n) (hcode : Code d code o)
include hin hcode

theorem Ring.exchange (h : Ring d m dst src n k 0 4 count align s) (hk : k + 128 ≤ n)
    (hQ : ∀ s', Ring d m dst src n (k + 64) 0 4 count align s' →
      Returns code (o + 70) s' (d.done m dst src n (k + 64)) Q) :
    Returns code (o + 62) s (d.done m dst src n k) Q := by
  refine h.store hin (hcode.at 62 rfl) (by decide) (by omega) fun s1 h1 => ?_
  refine h1.load hin (hcode.at 63 rfl) (by decide) (by decide) (by omega) fun s2 h2 => ?_
  refine h2.store hin (hcode.at 64 rfl) (by decide) (by omega) fun s3 h3 => ?_
  refine h3.load hin (hcode.at 65 rfl) (by decide) (by decide) (by omega) fun s4 h4 => ?_
  refine h4.store hin (hcode.at 66 rfl) (by decide) (by omega) fun s5 h5 => ?_
  refine h5.load hin (hcode.at 67 rfl) (by decide) (by decide) (by omega) fun s6 h6 => ?_
  refine h6.store hin (hcode.at 68 rfl) (by decide) (by omega) fun s7 h7 => ?_
  refine h7.load hin (hcode.at 69 rfl) (by decide) (by decide) (by omega) fun s8 h8 => ?_
  exact hQ s8 (h8.shift (a := 0) (b := 4))

theorem Ring.drain (h : Ring d m dst src n k 0 4 count align s) (hk : k + 64 ≤ n)
    (hQ : ∀ s', Cursor d m dst src n (k + 64) count align s' →
      Returns code (o + 76) s' (d.done m dst src n (k + 64)) Q) :
    Returns code (o + 72) s (d.done m dst src n k) Q := by
  refine h.store hin (hcode.at 72 rfl) (by decide) (by omega) fun s1 h1 => ?_
  refine h1.store hin (hcode.at 73 rfl) (by decide) (by omega) fun s2 h2 => ?_
  refine h2.store hin (hcode.at 74 rfl) (by decide) (by omega) fun s3 h3 => ?_
  refine h3.store hin (hcode.at 75 rfl) (by decide) (by omega) fun s4 h4 => ?_
  exact hQ s4 (h4.shift (a := 0) (b := 0))

theorem Ring.preload (h : Cursor d m dst src n k count align s) (hk : k + 64 ≤ n)
    (hQ : ∀ s', Ring d m dst src n k 0 4 count align s' →
      Returns code (o + 62) s' (d.done m dst src n k) Q) :
    Returns code (o + 58) s (d.done m dst src n k) Q := by
  refine h.load (a := 0) hin (hcode.at 58 rfl) (by decide) (by decide) (by omega) fun s1 h1 => ?_
  refine h1.load hin (hcode.at 59 rfl) (by decide) (by decide) (by omega) fun s2 h2 => ?_
  refine h2.load hin (hcode.at 60 rfl) (by decide) (by decide) (by omega) fun s3 h3 => ?_
  refine h3.load hin (hcode.at 61 rfl) (by decide) (by decide) (by omega) fun s4 h4 => ?_
  exact hQ s4 h4

theorem Ring.single (h : Cursor d m dst src n k count align s) (hk : k + 64 ≤ n)
    (hQ : ∀ s', Cursor d m dst src n (k + 64) count align s' →
      Returns code (o + 55) s' (d.done m dst src n (k + 64)) Q) :
    Returns code (o + 47) s (d.done m dst src n k) Q := by
  refine h.load (a := 0) hin (hcode.at 47 rfl) (by decide) (by decide) (by omega) fun s1 h1 => ?_
  refine h1.store hin (hcode.at 48 rfl) (by decide) (by omega) fun s2 h2 => ?_
  refine h2.load hin (hcode.at 49 rfl) (by decide) (by decide) (by omega) fun s3 h3 => ?_
  refine h3.load hin (hcode.at 50 rfl) (by decide) (by decide) (by omega) fun s4 h4 => ?_
  refine h4.store hin (hcode.at 51 rfl) (by decide) (by omega) fun s5 h5 => ?_
  refine h5.store hin (hcode.at 52 rfl) (by decide) (by omega) fun s6 h6 => ?_
  refine h6.load hin (hcode.at 53 rfl) (by decide) (by decide) (by omega) fun s7 h7 => ?_
  refine h7.store hin (hcode.at 54 rfl) (by decide) (by omega) fun s8 h8 => ?_
  exact hQ s8 (h8.shift (a := 0) (b := 0))

end

/-- A subtraction from the count, and the signed comparison of its flags. -/
theorem Ring.countdown {x : Nat} (h : Ring d m dst src n k a b count align s)
    (hc : count.toNat < 2 ^ 63) (hx : x < 2 ^ 63)
    (hsubs : code[pc]? = some (.alus .x .sub (.x 2) (.x 2) (.imm x)))
    (hbge : code[pc + 1]? = some (.bc .ge o)) {mem : Mem}
    (hge : x ≤ count.toNat → ∀ s',
      Ring d m dst src n k a b (count - BitVec.ofNat 64 x) align s' → Returns code o s' mem Q)
    (hlt : count.toNat < x → ∀ s',
      Ring d m dst src n k a b (count - BitVec.ofNat 64 x) align s' →
        Returns code (pc + 2) s' mem Q) :
    Returns code pc s mem Q := by
  refine .alus hsubs ?_
  simp only [Alu.eval, Alu.flags, Core.get_x, Core.opnd_imm, h.x2]
  have h1 : Ring d m dst src n k a b (count - BitVec.ofNat 64 x) align
      { s.set (.x 2) (count - BitVec.ofNat 64 x) with
        flags := subFlags count (BitVec.ofNat 64 x) } :=
    h.frame (fun i h2 _ => Core.set_x_ne s 2 i _ h2) (Core.set_x_self s 2 _)
  have hxn : (BitVec.ofNat 64 x).toNat = x := by
    rw [BitVec.toNat_ofNat]
    exact Nat.mod_eq_of_lt (by omega)
  have hcond := holds_ge (p := count) (q := BitVec.ofNat 64 x) hc (by omega)
  rw [hxn] at hcond
  refine .branch hbge rfl (fun ht => ?_) (fun hf => ?_)
  · rw [hcond, decide_eq_true_iff] at ht
    exact hge ht _ h1
  · rw [hcond, decide_eq_false_iff_not, Nat.not_le] at hf
    exact hlt hf _ h1

/-- **The loop**: 64 bytes are stored while the next 64 are loaded. -/
theorem large (c : Nat) (hin : Input d m dst src n) (hcode : Code d code o)
    (h : Ring d m dst src n k 0 4 count align s) (hc : count.toNat = c) (hk : k + c + 128 = n) :
    Returns code (o + 62) s (d.done m dst src n k) (Moved m dst src n) := by
  induction c using Nat.strongRecOn generalizing k count s with
  | _ c ih =>
    have hn := hin.small
    refine h.exchange hin hcode (by omega) fun s1 h1 => ?_
    refine h1.countdown (by omega) (by decide) (hcode.at 70 rfl)
      (hcode.at 71 rfl) (fun hge s2 h2 => ?_) (fun hlt s2 h2 => ?_)
    · have hsub : (count - BitVec.ofNat 64 64).toNat = c - 64 := by bv_omega
      exact ih (c - 64) (by omega) h2 hsub (by omega)
    · have hsub : (count - BitVec.ofNat 64 64).toNat % 64 = c := by bv_omega
      refine h2.drain hin hcode (by omega) fun s3 h3 => ?_
      refine rest hin hcode h3 (by omega) (hcode.at 76 rfl) (hcode.at 77 rfl) fun s4 hx0 => ?_
      exact .ret (hcode.at 78 rfl) (moved_done hx0)

section

variable (hin : Input d m dst src n) (hcode : Code d code o)
include hin hcode

theorem over64 (h : Cursor d m dst src n k count align s) (hk : k + count.toNat = n)
    (h64 : 64 ≤ count.toNat) :
    Returns code (o + 45) s (d.done m dst src n k) (Moved m dst src n) := by
  have hn := hin.small
  refine h.countdown (by omega) (by decide) (hcode.at 45 rfl)
    (hcode.at 46 rfl) (fun hge s1 h1 => ?_) (fun hlt s1 h1 => ?_)
  · have hsub : (count - BitVec.ofNat 64 128).toNat = count.toNat - 128 := by bv_omega
    refine h1.preload hin hcode (by omega) fun s2 h2 => ?_
    exact large _ hin hcode h2 hsub (by omega)
  · have hsub : (count - BitVec.ofNat 64 128).toNat % 64 = count.toNat - 64 := by bv_omega
    refine h1.single hin hcode (by omega) fun s2 h2 => ?_
    refine rest hin hcode h2 (by omega) (hcode.at 55 rfl) (hcode.at 56 rfl) fun s3 hx0 => ?_
    exact leave_moved hcode (hcode.at 57 rfl) hx0

theorem aligned (h : Cursor d m dst src n k count align s) (hk : k + count.toNat = n) :
    Returns code (o + 19) s (d.done m dst src n k) (Moved m dst src n) := by
  have hn := hin.small
  refine .alus (hcode.at 19 rfl) ?_
  simp only [Alu.eval, Alu.flags, Core.get_x, Core.opnd_imm, Core.set_zr, h.x2]
  have h1 : Cursor d m dst src n k count align { s with flags := subFlags count 64#64 } :=
    h.frame (fun _ _ _ => rfl) h.x2
  have hcond := holds_ge (p := count) (q := 64#64) (by omega) (by decide)
  rw [show (64#64).toNat = 64 from rfl] at hcond
  refine .branch (hcode.at 20 rfl) rfl (fun ht => ?_) (fun hf => ?_)
  · rw [hcond, decide_eq_true_iff] at ht
    exact over64 hin hcode h1 hk ht
  · rw [hcond, decide_eq_false_iff_not] at hf
    exact tail63 hin hcode h1 (by omega)

theorem align_moved (h : Cursor d m dst src n 0 count align s) (hk : count.toNat = n)
    (halign : align.toNat < 16) (h16 : 16 ≤ n) :
    Returns code (o + 6) s (d.done m dst src n 0) (Moved m dst src n) := by
  have hb0 : bitLen align 0 = align.toNat % 2 := by simp [bitLen]
  have hb1 : bitLen align 1 = align.toNat / 2 % 2 * 2 := rfl
  have hb2 : bitLen align 2 = align.toNat / 4 % 2 * 4 := rfl
  have hb3 : bitLen align 3 = align.toNat / 8 % 2 * 8 := rfl
  have hsub : (count - align).toNat = n - align.toNat := by
    have := hin.small
    bv_omega
  refine .alu (hcode.at 6 rfl) ?_
  simp only [Alu.eval, Core.get_x, Core.opnd_reg, h.x2, h.x4]
  have h0 : Cursor d m dst src n 0 (count - align) align (s.set (.x 2) (count - align)) :=
    h.frame (fun i h2 _ => Core.set_x_ne s 2 i _ h2) (Core.set_x_self s 2 _)
  refine h0.bit 0 hin h0.x4 (by decide) (hcode.at 7 rfl) (hcode.at 8 rfl) (hcode.at 9 rfl)
    (by omega) fun s1 h1 => ?_
  refine h1.bit 1 hin h1.x4 (by decide) (hcode.at 10 rfl) (hcode.at 11 rfl) (hcode.at 12 rfl)
    (by omega) fun s2 h2 => ?_
  refine h2.bit 2 hin h2.x4 (by decide) (hcode.at 13 rfl) (hcode.at 14 rfl) (hcode.at 15 rfl)
    (by omega) fun s3 h3 => ?_
  refine h3.bit 3 hin h3.x4 (by decide) (hcode.at 16 rfl) (hcode.at 17 rfl) (hcode.at 18 rfl)
    (by omega) fun s4 h4 => ?_
  exact aligned hin hcode h4 (by omega)

/-! ## The two functions -/

/-- The pointers are set; `x4` gets the bytes up to the alignment. -/
theorem start (h : Cursor d m dst src n 0 count align s) (hk : count.toNat = n) (h16 : 16 ≤ n)
    (hands : code[o + 4]? = some (.alus .x .and (.x 4) (.x r) (.imm 15)))
    (hbeq : code[o + 5]? = some (.bc .eq (o + 19))) :
    Returns code (o + 4) s (d.done m dst src n 0) (Moved m dst src n) := by
  refine .alus hands ?_
  simp only [Alu.eval, Alu.flags, Core.get_x, Core.opnd_imm]
  have hand := and_15 (s.x r)
  generalize s.x r &&& 15#64 = x4 at hand
  have hne : ∀ i : Fin 31, i ≠ 4 → (s.set (.x 4) x4).x i = s.x i := fun i hi =>
    Core.set_x_ne s 4 i x4 hi
  have h1 : Cursor d m dst src n 0 count x4
      { s.set (.x 4) x4 with flags := ⟨x4.msb, x4 == 0, false, false⟩ } :=
    ⟨(hne 0 (by decide)).trans h.x0, (hne 1 (by decide)).trans h.x1,
      (hne 2 (by decide)).trans h.x2, Core.set_x_self s 4 x4, (hne 6 (by decide)).trans h.x6,
      fun j _ hj => absurd hj (Nat.not_lt_zero j)⟩
  refine .branch hbeq rfl (fun _ => ?_) (fun _ => ?_)
  · exact aligned hin hcode h1 (by omega)
  · exact align_moved hin hcode h1 hk (by omega) h16

end

theorem memcpyAt_code (hcode : ∀ i < 79, code[o + i]? = (memcpyAt o)[i]?) : Code .up code o := by
  intro i h6 hi
  rw [hcode i hi, memcpyAt_eq, List.getElem?_append_right h6]
  rfl

/-- `memcpy`, wherever it is, copies as long as it does not overwrite what it is to read. -/
theorem memcpy_copies (hin : Input .up m dst src n)
    (hcode : ∀ i < 79, code[o + i]? = (memcpyAt o)[i]?) (h0 : s.x 0 = dst) (h1 : s.x 1 = src)
    (h2 : s.x 2 = BitVec.ofNat 64 n) : Returns code o s m (Moved m dst src n) := by
  have hbody := memcpyAt_code hcode
  have hcount : (BitVec.ofNat 64 n).toNat = n := by
    rw [BitVec.toNat_ofNat]
    exact Nat.mod_eq_of_lt (by have := hin.small; omega)
  suffices h : Returns code o s (Dir.done .up m dst src n 0) (Moved m dst src n) by
    rwa [Dir.done_zero] at h
  refine .alu (hcode 0 (by decide)) (.alus (hcode 1 (by decide)) ?_)
  simp only [Alu.eval, Alu.flags, Core.get_x, Core.get_zr, Core.opnd_reg, Core.opnd_imm,
    Core.set_zr, h0]
  have hmov : (0 : Word) ||| dst = dst := BitVec.zero_or
  rw [hmov]
  have hs : ∀ i : Fin 31, i ≠ 6 → (s.set (.x 6) dst).x i = s.x i := fun i hi =>
    Core.set_x_ne s 6 i dst hi
  rw [hs 2 (by decide), h2]
  have hcur : ∀ (align : Word) (s' : Core), s'.x 4 = align →
      (∀ i, i ≠ 4 → s'.x i = (s.set (.x 6) dst).x i) →
      Cursor .up m dst src n 0 (BitVec.ofNat 64 n) align s' := by
    intro align s' h4 hx
    refine ⟨?_, ?_, ?_, h4, ?_, fun j _ hj => absurd hj (Nat.not_lt_zero j)⟩
    · rw [hx 0 (by decide), hs 0 (by decide), h0]
    · rw [hx 1 (by decide), hs 1 (by decide), h1]
      exact (BitVec.add_zero src).symm
    · rw [hx 2 (by decide), hs 2 (by decide), h2]
    · rw [hx 6 (by decide), Core.set_x_self]
      exact (BitVec.add_zero dst).symm
  refine .branch (hcode 2 (by decide)) rfl (fun ht => ?_) (fun hf => ?_)
  · rw [holds_cc, decide_eq_true_iff, hcount] at ht
    have hlt : n < 16 := ht
    exact tail15 hin hbody (hcur _ _ rfl fun _ _ => rfl) (by omega)
  · rw [holds_cc, decide_eq_false_iff_not, hcount] at hf
    have hge : 16 ≤ n := Nat.not_lt.1 hf
    refine .alu (hcode 3 (by decide)) ?_
    refine start hin hbody (hcur _ _ (Core.set_x_self ..) fun i hi => ?_) hcount hge
      (hcode 4 (by decide)) (hcode 5 (by decide))
    exact Core.set_x_ne _ 4 i _ hi

/-- Towards lower addresses, in place, or past the end of the source. -/
theorem up_safe (hsrc : src.toNat + n ≤ 2 ^ 64) (hdst : dst.toNat + n ≤ 2 ^ 64)
    (h : dst.toNat ≤ src.toNat ∨ src.toNat + n ≤ dst.toNat) : Dir.Safe .up dst src n := by
  intro j hj
  have := toNat_ofNat_of_lt (show j < 2 ^ 64 by omega)
  bv_omega

theorem down_safe (hsrc : src.toNat + n < 2 ^ 64) (hdst : dst.toNat + n ≤ 2 ^ 64)
    (hle : src.toNat ≤ dst.toNat) (hlt : dst.toNat < src.toNat + n) : Dir.Safe .down dst src n := by
  intro j hj
  have := toNat_ofNat_of_lt (show j < 2 ^ 64 by omega)
  bv_omega

theorem memmove_code : Code .down memmove 5 := by
  intro i h6 hi
  rw [memmove_eq, List.getElem?_append_right (by simp [memmove]; omega),
    List.getElem?_append_left (by simp [memmove, body]; omega)]
  congr 1
  simp [memmove]
  omega

theorem memmove_memcpy (i : Nat) (hi : i < 79) : memmove[84 + i]? = (memcpyAt 84)[i]? := by
  rw [memmove_eq, List.getElem?_append_right (by simp [memmove]; omega),
    List.getElem?_append_right (by simp [memmove, body]; omega)]
  congr 1
  simp [memmove, body]
  omega

/-- The downward half, from the point where the pointers are moved to the ends. -/
theorem memmove_down (hin : Input .down m dst src n) (h0 : s.x 0 = dst) (h1 : s.x 1 = src)
    (h2 : s.x 2 = BitVec.ofNat 64 n) : Returns memmove 5 s m (Moved m dst src n) := by
  have hcount : (BitVec.ofNat 64 n).toNat = n := by
    rw [BitVec.toNat_ofNat]
    exact Nat.mod_eq_of_lt (by have := hin.small; omega)
  suffices h : Returns memmove 5 s (Dir.done .down m dst src n 0) (Moved m dst src n) by
    rwa [Dir.done_zero] at h
  refine .alu (show memmove[5]? = some _ from rfl) (.alu (show memmove[6]? = some _ from rfl)
    (.alus (show memmove[7]? = some _ from rfl) ?_))
  have hcur : ∀ f, Cursor .down m dst src n 0 (BitVec.ofNat 64 n) (s.x 4)
      { (s.set (.x 6) (dst + BitVec.ofNat 64 n)).set (.x 1) (src + BitVec.ofNat 64 n) with
        flags := f } := by
    intro f
    refine ⟨?_, ?_, ?_, ?_, ?_, fun j _ hj => absurd hj (Nat.not_lt_zero j)⟩
    · simp [h0]
    · simp [base]
    · simp [h2]
    · simp
    · simp [base]
  have hset : (s.set (.x 6) (dst + BitVec.ofNat 64 n)).x 1 = src := by simp [h1]
  have hset2 : (s.set (.x 6) (dst + BitVec.ofNat 64 n)).x 2 = BitVec.ofNat 64 n := by simp [h2]
  have hset2' : ((s.set (.x 6) (dst + BitVec.ofNat 64 n)).set (.x 1)
      (src + BitVec.ofNat 64 n)).x 2 = BitVec.ofNat 64 n := by simp [h2]
  simp only [Alu.eval, Alu.flags, Core.get_x, Core.opnd_reg, Core.opnd_imm, Core.set_zr, h0, h2,
    hset, hset2, hset2']
  refine .branch (show memmove[8]? = some _ from rfl) rfl (fun ht => ?_) (fun hf => ?_)
  · rw [holds_cc, decide_eq_true_iff, hcount] at ht
    have hlt : n < 16 := ht
    exact tail15 (o := 5) hin memmove_code (hcur _) (by omega)
  · rw [holds_cc, decide_eq_false_iff_not, hcount] at hf
    have hge : 16 ≤ n := Nat.not_lt.1 hf
    exact start (o := 5) hin memmove_code (hcur _) hcount hge rfl rfl

/-- **`memmove` moves any block**, whether or not it overlaps the place it goes to. -/
theorem memmove_moves (m : Mem) (dst src : Word) (n : Nat) (s : Core) (hsrc : Mapped m src n)
    (hdst : Mapped m dst n) (hn : n < 2 ^ 63) (hsrcEnd : src.toNat + n ≤ 2 ^ 64)
    (hdstEnd : dst.toNat + n ≤ 2 ^ 64) (h0 : s.x 0 = dst) (h1 : s.x 1 = src)
    (h2 : s.x 2 = BitVec.ofNat 64 n) :
    Returns memmove 0 s m fun s' m' =>
      s'.x 0 = dst ∧ ∀ c, m' c = if (c - dst).toNat < n then m (src + (c - dst)) else m c := by
  have hend : (src + BitVec.ofNat 64 n).toNat = (src.toNat + n) % 2 ^ 64 := by
    rw [BitVec.toNat_add, toNat_ofNat_of_lt (by omega)]
  have hup : (dst.toNat ≤ src.toNat ∨ src.toNat + n ≤ dst.toNat) → ∀ s' : Core,
      s'.x 0 = dst → s'.x 1 = src → s'.x 2 = BitVec.ofNat 64 n →
      Returns memmove 84 s' m (Moved m dst src n) := fun hor s' =>
    memcpy_copies ⟨hsrc, hdst, hn, up_safe hsrcEnd hdstEnd hor⟩ memmove_memcpy
  refine .alus (show memmove[0]? = some _ from rfl) ?_
  simp only [Alu.eval, Alu.flags, Core.get_x, Core.opnd_reg, Core.set_zr, h0, h1]
  refine .branch (show memmove[1]? = some _ from rfl) rfl (fun ht => ?_) (fun hf => ?_)
  · rw [holds_cc, decide_eq_true_iff] at ht
    exact hup (.inl (Nat.le_of_lt ht)) _ h0 h1 h2
  rw [holds_cc, decide_eq_false_iff_not, Nat.not_lt] at hf
  refine .alu (show memmove[2]? = some _ from rfl)
    (.alus (show memmove[3]? = some _ from rfl) ?_)
  simp only [Alu.eval, Alu.flags, Core.get_x, Core.opnd_reg, Core.set_zr, Core.set_x_self, h1, h2]
  rw [Core.set_x_ne _ 3 0 _ (by decide)]
  simp only [h0]
  have hx : ∀ i : Fin 31, i ≠ 3 →
      (Core.set { s with flags := subFlags dst src } (.x 3) (src + BitVec.ofNat 64 n)).x i =
        s.x i := fun i hi => Core.set_x_ne _ 3 i _ hi
  refine .branch (show memmove[4]? = some _ from rfl) rfl (fun ht => ?_) (fun hf' => ?_)
  · rw [holds_cs, decide_eq_true_iff, hend] at ht
    -- a source that ends at the top of the address space can only be moved down or in place
    exact hup (by omega) _ ((hx 0 (by decide)).trans h0) ((hx 1 (by decide)).trans h1)
      ((hx 2 (by decide)).trans h2)
  · rw [holds_cs, decide_eq_false_iff_not, hend, Nat.not_le] at hf'
    exact memmove_down ⟨hsrc, hdst, hn, down_safe (by omega) hdstEnd hf (by omega)⟩
      ((hx 0 (by decide)).trans h0) ((hx 1 (by decide)).trans h1) ((hx 2 (by decide)).trans h2)

theorem mapped_low (a n : Nat) (h : a + n ≤ 256) :
    Mapped (fun c => if c.toNat < 256 then some (c.setWidth 8) else none)
      (BitVec.ofNat 64 a) n := by
  intro i hi
  have hlt : (BitVec.ofNat 64 a + BitVec.ofNat 64 i).toNat < 256 := by
    rw [← BitVec.ofNat_add, BitVec.toNat_ofNat]
    omega
  simp only [if_pos hlt, Option.isSome_some]

/-- 150 bytes moved up by 2, in the middle of 256. -/
theorem memmove_moves_overlap :
    let m : Mem := fun c => if c.toNat < 256 then some (c.setWidth 8) else none
    let s : Core := ⟨fun i => if i = 0 then 18 else if i = 1 then 16 else if i = 2 then 150 else 0,
      0, fun _ => 0, ⟨false, false, false, false⟩⟩
    Returns memmove 0 s m fun s' m' => s'.x 0 = 18 ∧
      ∀ c, m' c = if (c - 18).toNat < 150 then m (16 + (c - 18)) else m c := by
  intro m s
  exact memmove_moves m 18 16 150 s (mapped_low 16 150 (by decide)) (mapped_low 18 150 (by decide))
    (by decide) (by decide) (by decide) rfl rfl rfl

/-! ## The copy at boot -/

/-- `memcpy_asm` of `boot_util.S`, a byte at a time. -/
def memcpyAsm : List Instr := [
  .alu .x .add (.x 3) (.x 1) (.reg (.x 2)),
  .cmp .x (.x 1) (.reg (.x 3)),
  .bc .cs 9,
  .mov .x (.x 3) (.imm 0),
  -- 4: .L3
  .ldr 1 (.x 4) (.idx (.x 1) (.x 3)),
  .str 1 (.x 4) (.idx (.x 0) (.x 3)),
  .alu .x .add (.x 3) (.x 3) (.imm 1),
  .cmp .x (.x 3) (.reg (.x 2)),
  .bc .ne 4,
  -- 9: .L1
  .ret]

theorem byte (hin : Input .up m dst src n) (h0 : s.x 0 = dst) (h1 : s.x 1 = src)
    (h2 : s.x 2 = BitVec.ofNat 64 n) (h3 : s.x 3 = BitVec.ofNat 64 k) (hk : k + 1 ≤ n)
    (hQ : ∀ s', s'.x 0 = dst → s'.x 1 = src → s'.x 2 = BitVec.ofNat 64 n →
      s'.x 3 = BitVec.ofNat 64 (k + 1) →
      s'.flags = subFlags (BitVec.ofNat 64 (k + 1)) (BitVec.ofNat 64 n) →
      Returns memcpyAsm 8 s' (Dir.done .up m dst src n (k + 1)) Q) :
    Returns memcpyAsm 4 s (Dir.done .up m dst src n k) Q := by
  obtain ⟨v, hv, hw⟩ := hin.piece hk (by decide)
  have hnext : BitVec.ofNat 64 k + 1#64 = BitVec.ofNat 64 (k + 1) :=
    (BitVec.ofNat_add k 1).symm
  refine .ldr (show memcpyAsm[4]? = some _ from rfl)
    (by simpa only [Core.addr, Core.get_x, h1, h3, Dir.pos] using hv) ?_
  refine .str (show memcpyAsm[5]? = some _ from rfl)
    (by simpa [Core.addr, h0, h3, Dir.pos] using hw) ?_
  refine .alu (show memcpyAsm[6]? = some _ from rfl) ?_
  refine .alus (show memcpyAsm[7]? = some _ from rfl) (hQ _ ?_ ?_ ?_ ?_ ?_)
  · simp [Core.addr, h0]
  · simp [Core.addr, h1]
  · simp [Core.addr, h2]
  · simp [Core.addr, h3, Alu.eval, hnext]
  · simp [Core.addr, h2, h3, Alu.eval, Alu.flags, hnext]

/-- **The loop of the bytes**, by induction on what is left. -/
theorem bytes (left : Nat) (hin : Input .up m dst src n) (h0 : s.x 0 = dst) (h1 : s.x 1 = src)
    (h2 : s.x 2 = BitVec.ofNat 64 n) (h3 : s.x 3 = BitVec.ofNat 64 k) (hk : k + 1 + left = n) :
    Returns memcpyAsm 4 s (Dir.done .up m dst src n k) (Moved m dst src n) := by
  have hn := hin.small
  induction left generalizing k s with
  | zero =>
    refine byte hin h0 h1 h2 h3 (by omega) fun s' g0 _ _ _ gf => ?_
    obtain rfl : k + 1 = n := by omega
    refine .branch (show memcpyAsm[8]? = some _ from rfl) rfl (fun ht => ?_) (fun _ => ?_)
    · rw [gf, holds_ne, decide_eq_true_iff] at ht
      exact absurd rfl ht
    · exact .ret rfl (moved_done g0)
  | succ left ih =>
    refine byte hin h0 h1 h2 h3 (by omega) fun s' g0 g1 g2 g3 gf => ?_
    refine .branch (show memcpyAsm[8]? = some _ from rfl) rfl (fun _ => ?_) (fun hf => ?_)
    · exact ih g0 g1 g2 g3 (by omega)
    · rw [gf, holds_ne, decide_eq_false_iff_not, Decidable.not_not] at hf
      have heq := congrArg BitVec.toNat hf
      rw [BitVec.toNat_ofNat, BitVec.toNat_ofNat, Nat.mod_eq_of_lt (by omega),
        Nat.mod_eq_of_lt (by omega)] at heq
      omega

theorem memcpyAsm_copies (hin : Input .up m dst src n) (hend : src.toNat + n < 2 ^ 64)
    (h0 : s.x 0 = dst) (h1 : s.x 1 = src) (h2 : s.x 2 = BitVec.ofNat 64 n) :
    Returns memcpyAsm 0 s m (Moved m dst src n) := by
  have hn := hin.small
  suffices h : Returns memcpyAsm 0 s (Dir.done .up m dst src n 0) (Moved m dst src n) by
    rwa [Dir.done_zero] at h
  have hsum : (src + BitVec.ofNat 64 n).toNat = src.toNat + n := by
    have := toNat_ofNat_of_lt (show n < 2 ^ 64 by omega)
    bv_omega
  refine .alu (show memcpyAsm[0]? = some _ from rfl) ?_
  refine .alus (show memcpyAsm[1]? = some _ from rfl) ?_
  refine .branch (show memcpyAsm[2]? = some _ from rfl) rfl (fun ht => ?_) (fun hf => ?_)
  · simp only [Alu.eval, Alu.flags, Core.get_x, Core.opnd_reg, Core.set_x_self, h1, h2,
      Core.set_x_ne s 3 1 _ (by decide), holds_cs, decide_eq_true_iff, hsum] at ht
    obtain rfl : n = 0 := by omega
    refine .ret rfl (moved_done ?_)
    simp [h0]
  · simp only [Alu.eval, Alu.flags, Core.get_x, Core.opnd_reg, Core.set_x_self, h1, h2,
      Core.set_x_ne s 3 1 _ (by decide), holds_cs, decide_eq_false_iff_not, hsum] at hf
    refine .alu (show memcpyAsm[3]? = some _ from rfl) ?_
    refine bytes (k := 0) (n - 1) hin ?_ ?_ ?_ ?_ (by omega)
    · simp [h0]
    · simp [h1]
    · simp [h2]
    · simp [Alu.eval]

/-- **The copy at boot and `memcpy` agree**: when the copy goes towards lower addresses or past the
end of the source, both return the destination and leave the same memory. A source that ends at
the top of the address space is left out: there `memcpy_asm` returns at once. -/
theorem memcpyAsm_agrees (m : Mem) (dst src : Word) (n : Nat) (s : Core) (hsrc : Mapped m src n)
    (hdst : Mapped m dst n) (hn : n < 2 ^ 63) (hsrcEnd : src.toNat + n < 2 ^ 64)
    (hdstEnd : dst.toNat + n ≤ 2 ^ 64)
    (hor : dst.toNat < src.toNat ∨ src.toNat + n ≤ dst.toNat)
    (h0 : s.x 0 = dst) (h1 : s.x 1 = src) (h2 : s.x 2 = BitVec.ofNat 64 n) :
    (Returns memcpy 0 s m fun s' m' =>
      s'.x 0 = dst ∧ ∀ c, m' c = if (c - dst).toNat < n then m (src + (c - dst)) else m c) ∧
    (Returns memcpyAsm 0 s m fun s' m' =>
      s'.x 0 = dst ∧ ∀ c, m' c = if (c - dst).toNat < n then m (src + (c - dst)) else m c) := by
  have hin : Input .up m dst src n := ⟨hsrc, hdst, hn,
    up_safe (Nat.le_of_lt hsrcEnd) hdstEnd (hor.imp_left Nat.le_of_lt)⟩
  have hcode : ∀ i < 79, memcpy[0 + i]? = (memcpyAt 0)[i]? := fun i _ => by
    rw [Nat.zero_add, memcpy]
  exact ⟨memcpy_copies hin hcode h0 h1 h2, memcpyAsm_copies hin hsrcEnd h0 h1 h2⟩

/-- 100 bytes moved down by 1. -/
theorem memcpyAsm_agrees_down :
    let m : Mem := fun c => if c.toNat < 256 then some (c.setWidth 8) else none
    let s : Core := ⟨fun i => if i = 0 then 15 else if i = 1 then 16 else if i = 2 then 100 else 0,
      0, fun _ => 0, ⟨false, false, false, false⟩⟩
    (Returns memcpy 0 s m fun s' m' => s'.x 0 = 15 ∧
      ∀ c, m' c = if (c - 15).toNat < 100 then m (16 + (c - 15)) else m c) ∧
    (Returns memcpyAsm 0 s m fun s' m' => s'.x 0 = 15 ∧
      ∀ c, m' c = if (c - 15).toNat < 100 then m (16 + (c - 15)) else m c) := by
  intro m s
  exact memcpyAsm_agrees m 15 16 100 s (mapped_low 16 100 (by decide))
    (mapped_low 15 100 (by decide)) (by decide) (by decide) (by decide) (.inl (by decide)) rfl rfl
    rfl

end SpringOs.Memmove
