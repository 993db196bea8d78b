import SpringOs.Lib.ArmMemory

/-!
`memset` of `memset.S`, which is also `memset_asm` of `boot_util.S`.

The byte is repeated over a word, stored eight bytes at a time, and then once each as a word, a
half word and a byte. The count runs below zero: before the stores of `size` bytes it is `size`
less than what is left, so that its sign tells whether there is room.

* `pattern_byte`: every byte of the word is the byte;
* `words`: the loop, by induction on the count;
* **`memset_fills`**: exactly the bytes of the buffer are filled.
-/

namespace SpringOs.Memset
open Lib.Arm

def memset : List Instr := [
  .mov .x (.x 4) (.reg (.x 0)),
  .alu .w .and (.x 1) (.x 1) (.imm 0xff),
  .alu .w .orr (.x 1) (.x 1) (.lsl (.x 1) 8),
  .alu .w .orr (.x 1) (.x 1) (.lsl (.x 1) 16),
  .alu .x .orr (.x 1) (.x 1) (.lsl (.x 1) 32),
  .alus .x .sub (.x 2) (.x 2) (.imm 8),
  .bc .mi 10,
  -- 7: 1:
  .str 8 (.x 1) (.post (.x 4) 8),
  .alus .x .sub (.x 2) (.x 2) (.imm 8),
  .bc .pl 7,
  -- 10: 2:
  .alus .x .add (.x 2) (.x 2) (.imm 4),
  .bc .mi 14,
  .alu .x .sub (.x 2) (.x 2) (.imm 4),
  .str 4 (.x 1) (.post (.x 4) 4),
  -- 14: 3:
  .alus .x .add (.x 2) (.x 2) (.imm 2),
  .bc .mi 18,
  .alu .x .sub (.x 2) (.x 2) (.imm 2),
  .str 2 (.x 1) (.post (.x 4) 2),
  -- 18: 4:
  .alus .x .add (.x 2) (.x 2) (.imm 1),
  .bc .mi 21,
  .str 1 (.x 1) (.off (.x 4) 0),
  -- 21: 5:
  .ret]

def memsetAsm : List Instr := memset

/-! ## The word -/

/-- What the four instructions make of `x1`. -/
def pattern (x : Word) : Word :=
  let w1 := (x.setWidth 32 &&& 0xff#32)
  let w2 := w1 ||| w1 <<< 8
  let w3 := w2 ||| w2 <<< 16
  w3.setWidth 64 ||| w3.setWidth 64 <<< 32

theorem or_shiftLeft_eq (b k : Nat) (h : b < 2 ^ k) : b ||| b <<< k = b * 2 ^ k + b := by
  rw [Nat.or_comm, ← Nat.shiftLeft_add_eq_or_of_lt h, Nat.shiftLeft_eq]

theorem pattern_toNat (x : Word) : (pattern x).toNat = x.toNat % 256 * 0x0101010101010101 := by
  have h1 : (x.setWidth 32 &&& 0xff#32).toNat = x.toNat % 256 := by
    have hmod : x.toNat % 2 ^ 32 &&& 255 = x.toNat % 2 ^ 32 % 256 :=
      Nat.and_two_pow_sub_one_eq_mod _ 8
    rw [BitVec.toNat_and, BitVec.toNat_setWidth, show (0xff#32).toNat = 255 from rfl, hmod]
    omega
  have hlt : x.toNat % 256 < 256 := Nat.mod_lt _ (by decide)
  unfold pattern
  generalize x.setWidth 32 &&& 0xff#32 = w1 at h1
  generalize x.toNat % 256 = b at h1 hlt
  have h2 : (w1 ||| w1 <<< 8).toNat = b * 0x101 := by
    have hor := or_shiftLeft_eq b 8 (by omega)
    have hfit : b <<< 8 < 2 ^ 32 := by rw [Nat.shiftLeft_eq]; omega
    rw [BitVec.toNat_or, BitVec.toNat_shiftLeft, h1, Nat.mod_eq_of_lt hfit, hor]
    omega
  dsimp only
  generalize w1 ||| w1 <<< 8 = w2 at h2
  have h3 : (w2 ||| w2 <<< 16).toNat = b * 0x1010101 := by
    have hor := or_shiftLeft_eq (b * 0x101) 16 (by omega)
    have hfit : (b * 0x101) <<< 16 < 2 ^ 32 := by rw [Nat.shiftLeft_eq]; omega
    rw [BitVec.toNat_or, BitVec.toNat_shiftLeft, h2, Nat.mod_eq_of_lt hfit, hor]
    omega
  generalize w2 ||| w2 <<< 16 = w3 at h3
  have hor := or_shiftLeft_eq (b * 0x1010101) 32 (by omega)
  have hw : (w3.setWidth 64).toNat = b * 0x1010101 := by
    rw [BitVec.toNat_setWidth, h3]
    exact Nat.mod_eq_of_lt (by omega)
  have hfit : (b * 0x1010101) <<< 32 < 2 ^ 64 := by rw [Nat.shiftLeft_eq]; omega
  rw [BitVec.toNat_or, BitVec.toNat_shiftLeft, hw, Nat.mod_eq_of_lt hfit, hor]
  omega

/-- A number with `n` bytes `1`. -/
def ones : Nat → Nat
  | 0 => 0
  | n + 1 => 1 + 256 * ones n

theorem mul_ones_byte {b : Nat} (hb : b < 256) (n i : Nat) (hi : i < n) :
    b * ones n / 2 ^ (8 * i) % 256 = b := by
  induction n generalizing i with
  | zero => omega
  | succ n ih =>
    have hones : b * ones (n + 1) = b + 256 * (b * ones n) := by
      rw [ones, Nat.mul_add, Nat.mul_one, Nat.mul_left_comm]
    cases i with
    | zero =>
      rw [Nat.mul_zero, Nat.pow_zero, Nat.div_one, hones]
      omega
    | succ i =>
      have hdiv : b * ones (n + 1) / 256 = b * ones n := by omega
      have hpow : 2 ^ (8 * (i + 1)) = 256 * 2 ^ (8 * i) := by
        rw [Nat.mul_succ, Nat.add_comm, Nat.pow_add]
      calc b * ones (n + 1) / 2 ^ (8 * (i + 1)) % 256
          = b * ones (n + 1) / 256 / 2 ^ (8 * i) % 256 := by rw [hpow, Nat.div_div_eq_div_mul]
        _ = b * ones n / 2 ^ (8 * i) % 256 := by rw [hdiv]
        _ = b := ih i (by omega)

theorem pattern_byte (x : Word) {i : Nat} (hi : i < 8) :
    ((pattern x) >>> (8 * i)).setWidth 8 = x.setWidth 8 := by
  apply BitVec.eq_of_toNat_eq
  rw [BitVec.toNat_setWidth, BitVec.toNat_setWidth, BitVec.toNat_ushiftRight, pattern_toNat,
    Nat.shiftRight_eq_div_pow]
  exact mul_ones_byte (Nat.mod_lt _ (by decide)) 8 i hi

/-! ## The stores -/

section
variable (m : Mem) (buf x : Word)

/-- The first `k` bytes are filled. -/
def filled (k : Nat) : Mem := paste m buf (fun _ => some (x.setWidth 8)) 0 k

/-- The next byte is `k`, and the count is `off` less than the `left` bytes. -/
structure At (k left off : Nat) (s : Core) : Prop where
  x0 : s.x 0 = buf
  x1 : s.x 1 = pattern x
  x2 : s.x 2 = BitVec.ofNat 64 left - BitVec.ofNat 64 off
  x4 : s.x 4 = buf + BitVec.ofNat 64 k

/-- The buffer is filled, and `x0` is where it is. -/
def Filled (n : Nat) (s : Core) (m' : Mem) : Prop :=
  s.x 0 = buf ∧ ∀ c, m' c = if (c - buf).toNat < n then some (x.setWidth 8) else m c

end

variable {m : Mem} {buf x : Word} {n k left off size pc : Nat} {s : Core}
  {Q : Core → Mem → Prop}

theorem write_filled (hmap : Mapped m buf n) (hn : n < 2 ^ 63) (h8 : size ≤ 8)
    (hk : k + size ≤ n) :
    write (filled m buf x k) size (buf + BitVec.ofNat 64 k) (pattern x) =
      some (filled m buf x (k + size)) := by
  have hconst : Mapped (fun _ => some (x.setWidth 8)) 0 k := fun _ _ => rfl
  have hm : Mapped (filled m buf x k) (buf + BitVec.ofNat 64 k) size := (hmap.sub hk).paste hconst
  refine Eq.trans ?_ (congrArg some (paste_paste (by omega)))
  exact write_paste h8 hm fun i hi => congrArg some (pattern_byte x (by omega)).symm

theorem At.store (h : At buf x k left off s) (hmap : Mapped m buf n) (hn : n < 2 ^ 63)
    (h8 : size ≤ 8) (hk : k + size ≤ n)
    (hi : memset[pc]? = some (.str size (.x 1) (.post (.x 4) size)))
    (hQ : ∀ s', At buf x (k + size) left off s' →
      Returns memset (pc + 1) s' (filled m buf x (k + size)) Q) :
    Returns memset pc s (filled m buf x k) Q := by
  have hx : ∀ i : Fin 31, i ≠ 4 →
      (s.set (.x 4) (s.x 4 + BitVec.ofInt 64 size)).x i = s.x i := fun i hi =>
    Core.set_x_ne s 4 i _ hi
  refine .str hi ?_ (hQ _ ⟨(hx 0 (by decide)).trans h.x0, (hx 1 (by decide)).trans h.x1,
    (hx 2 (by decide)).trans h.x2, ?_⟩)
  · rw [Core.get_x, h.x1]
    change write _ _ (s.x 4) _ = _
    rw [h.x4]
    exact write_filled hmap hn h8 hk
  · refine (Core.set_x_self s 4 _).trans ?_
    rw [Core.get_x, h.x4, BitVec.ofInt_natCast, add_ofNat_add]

theorem At.count {left' off' : Nat} {s' : Core} (h : At buf x k left off s)
    (hx : ∀ i, i ≠ 2 → s'.x i = s.x i)
    (h2 : s'.x 2 = BitVec.ofNat 64 left' - BitVec.ofNat 64 off') : At buf x k left' off' s' :=
  ⟨(hx 0 (by decide)).trans h.x0, (hx 1 (by decide)).trans h.x1, h2,
    (hx 4 (by decide)).trans h.x4⟩

theorem msb_count (left off : Nat) (hl : left < 2 ^ 63) (ho : off ≤ 8) :
    (BitVec.ofNat 64 left - BitVec.ofNat 64 off).msb = decide (left < off) := by
  rw [BitVec.msb_eq_decide, decide_eq_decide, BitVec.toNat_sub, BitVec.toNat_ofNat,
    BitVec.toNat_ofNat, Nat.mod_eq_of_lt (by omega : left < 2 ^ 64),
    Nat.mod_eq_of_lt (by omega : off < 2 ^ 64)]
  omega

theorem filled_all (hx0 : s.x 0 = buf) : Filled m buf x n s (filled m buf x n) :=
  ⟨hx0, fun _ => rfl⟩

theorem last (h : At buf x k left 2 s) (hmap : Mapped m buf n) (hn : n < 2 ^ 63)
    (hk : k + left = n) (hleft : left < 2) :
    Returns memset 18 s (filled m buf x k) (Filled m buf x n) := by
  have hadd : BitVec.ofNat 64 left - BitVec.ofNat 64 2 + 1#64 =
      BitVec.ofNat 64 left - BitVec.ofNat 64 1 := by bv_omega
  have hmsb := msb_count left 1 (by omega) (by decide)
  refine .alus (show memset[18]? = some _ from rfl) ?_
  simp only [Alu.eval, Alu.flags, addFlags, Core.get_x, Core.opnd_imm, h.x2, hadd, hmsb]
  have h1 : ∀ f, At buf x k left 1
      { s.set (.x 2) (BitVec.ofNat 64 left - BitVec.ofNat 64 1) with flags := f } := fun f =>
    h.count (fun i hi => Core.set_x_ne s 2 i _ hi) (Core.set_x_self s 2 _)
  refine .branch (show memset[19]? = some _ from rfl) rfl (fun ht => ?_) (fun hf => ?_)
  · have hlt : left < 1 := of_decide_eq_true ht
    obtain rfl : k = n := by omega
    exact .ret rfl (filled_all (h1 _).x0)
  · have hge : ¬ left < 1 := of_decide_eq_false hf
    have hw := write_filled (x := x) hmap hn (by decide : 1 ≤ 8) (by omega : k + 1 ≤ n)
    obtain rfl : k + 1 = n := by omega
    refine .str (show memset[20]? = some _ from rfl) ?_ (.ret rfl (filled_all (h1 _).x0))
    simp only [Core.addr, Core.get_x]
    rw [(h1 _).x1, (h1 _).x4]
    exact (congrArg (write _ 1 · _) (BitVec.add_zero _)).trans hw

/-- There is room: the sum is taken back, so that the count is `size` less than what the store
leaves. -/
theorem At.room (h : At buf x k left size s) (hmap : Mapped m buf n) (hn : n < 2 ^ 63)
    (h8 : size ≤ 8) (hle : size ≤ left) (hk : k + left = n)
    (hsub : memset[pc]? = some (.alu .x .sub (.x 2) (.x 2) (.imm size)))
    (hstr : memset[pc + 1]? = some (.str size (.x 1) (.post (.x 4) size)))
    (hQ : ∀ s', At buf x (k + size) (left - size) size s' →
      Returns memset (pc + 2) s' (filled m buf x (k + size)) Q) :
    Returns memset pc s (filled m buf x k) Q := by
  have htwice : BitVec.ofNat 64 left - BitVec.ofNat 64 size - BitVec.ofNat 64 size =
      BitVec.ofNat 64 (left - size) - BitVec.ofNat 64 size := by
    obtain ⟨r, rfl⟩ := Nat.exists_eq_add_of_le hle
    rw [Nat.add_sub_cancel_left, BitVec.ofNat_add]
    bv_omega
  refine .alu hsub ?_
  simp only [Alu.eval, Core.get_x, Core.opnd_imm, h.x2, htwice]
  have h1 : At buf x k (left - size) size
      (s.set (.x 2) (BitVec.ofNat 64 (left - size) - BitVec.ofNat 64 size)) :=
    h.count (fun i hi => Core.set_x_ne s 2 i _ hi) (Core.set_x_self s 2 _)
  exact h1.store hmap hn h8 (by omega) hstr hQ

theorem half (h : At buf x k left (2 * size) s) (hmap : Mapped m buf n) (hn : n < 2 ^ 63)
    (hk : k + left = n) (hleft : left < 2 * size) (h4 : size ≤ 4)
    (hadds : memset[pc]? = some (.alus .x .add (.x 2) (.x 2) (.imm size)))
    (hbmi : memset[pc + 1]? = some (.bc .mi (pc + 4)))
    (hsub : memset[pc + 2]? = some (.alu .x .sub (.x 2) (.x 2) (.imm size)))
    (hstr : memset[pc + 3]? = some (.str size (.x 1) (.post (.x 4) size)))
    (hQ : ∀ k' left' s', At buf x k' left' size s' → k' + left' = n → left' < size →
      Returns memset (pc + 4) s' (filled m buf x k') Q) :
    Returns memset pc s (filled m buf x k) Q := by
  have hadd : BitVec.ofNat 64 left - BitVec.ofNat 64 (2 * size) + BitVec.ofNat 64 size =
      BitVec.ofNat 64 left - BitVec.ofNat 64 size := by bv_omega
  have hmsb := msb_count left size (by omega) (by omega)
  refine .alus hadds ?_
  simp only [Alu.eval, Alu.flags, addFlags, Core.get_x, Core.opnd_imm, h.x2, hadd, hmsb]
  have h1 : ∀ f, At buf x k left size
      { s.set (.x 2) (BitVec.ofNat 64 left - BitVec.ofNat 64 size) with flags := f } := fun f =>
    h.count (fun i hi => Core.set_x_ne s 2 i _ hi) (Core.set_x_self s 2 _)
  refine .branch hbmi rfl (fun ht => ?_) (fun hf => ?_)
  · exact hQ k left _ (h1 _) hk (of_decide_eq_true ht)
  · have hge : ¬ left < size := of_decide_eq_false hf
    exact (h1 _).room hmap hn (by omega) (by omega) hk hsub hstr fun s' h' =>
      hQ _ _ s' h' (by omega) (by omega)

theorem tail (h : At buf x k left 8 s) (hmap : Mapped m buf n) (hn : n < 2 ^ 63)
    (hk : k + left = n) (hleft : left < 8) :
    Returns memset 10 s (filled m buf x k) (Filled m buf x n) :=
  half h hmap hn hk hleft (by decide) rfl rfl rfl rfl fun _ _ _ h' hk' hleft' =>
    half h' hmap hn hk' hleft' (by decide) rfl rfl rfl rfl fun _ _ _ h'' hk'' hleft'' =>
      last h'' hmap hn hk'' hleft''

/-- **The loop** of the words. -/
theorem words (h : At buf x k left 8 s) (hmap : Mapped m buf n) (hn : n < 2 ^ 63)
    (hk : k + left = n) (hleft : 8 ≤ left) :
    Returns memset 7 s (filled m buf x k) (Filled m buf x n) := by
  induction left using Nat.strongRecOn generalizing k s with
  | _ left ih =>
    refine h.store hmap hn (by decide) (by omega) rfl fun s1 h1 => ?_
    have hsub : BitVec.ofNat 64 left - BitVec.ofNat 64 8 - 8#64 =
        BitVec.ofNat 64 (left - 8) - BitVec.ofNat 64 8 := by bv_omega
    have hmsb := msb_count (left - 8) 8 (by omega) (by decide)
    refine .alus (show memset[8]? = some _ from rfl) ?_
    simp only [Alu.eval, Alu.flags, subFlags, Core.get_x, Core.opnd_imm, h1.x2, hsub, hmsb]
    have h2 : ∀ f, At buf x (k + 8) (left - 8) 8
        { s1.set (.x 2) (BitVec.ofNat 64 (left - 8) - BitVec.ofNat 64 8) with flags := f } :=
      fun f => h1.count (fun i hi => Core.set_x_ne s1 2 i _ hi) (Core.set_x_self s1 2 _)
    refine .branch (show memset[9]? = some _ from rfl) rfl (fun ht => ?_) (fun hf => ?_)
    · have hge : ¬ left - 8 < 8 := of_decide_eq_false (Bool.not_eq_true' _ ▸ ht)
      exact ih (left - 8) (by omega) (h2 _) (by omega) (by omega)
    · have hlt : left - 8 < 8 := of_decide_eq_true (Bool.not_eq_false' _ ▸ hf)
      exact tail (h2 _) hmap hn (by omega) hlt

theorem start (h0 : s.x 0 = buf)
    (hQ : ∀ s', s'.x 0 = buf → s'.x 1 = pattern (s.x 1) → s'.x 2 = s.x 2 → s'.x 4 = buf →
      Returns memset 5 s' m Q) :
    Returns memset 0 s m Q := by
  have hwide : ∀ v : BitVec 32, (v.setWidth 64).setWidth 32 = v := fun v => by
    rw [BitVec.setWidth_setWidth_of_le v (by decide), BitVec.setWidth_eq]
  refine .alu (show memset[0]? = some _ from rfl) ?_
  refine .alu_w (show memset[1]? = some _ from rfl) ?_
  refine .alu_w (show memset[2]? = some _ from rfl) ?_
  refine .alu_w (show memset[3]? = some _ from rfl) ?_
  refine .alu (show memset[4]? = some _ from rfl) (hQ _ ?_ ?_ ?_ ?_)
  · simp [h0]
  · simp only [Alu.eval, Core.opnd, Core.get_x, Core.set_x_self, hwide,
      BitVec.setWidth_eq, Core.set_x_ne _ 4 1 _ (by decide), pattern]
  · simp
  · simp [Alu.eval, h0]

/-- **`memset` and `memset_asm` fill exactly the buffer** with the low byte of `x1`, and return
the buffer. -/
theorem memset_fills (m : Mem) (buf : Word) (n : Nat) (s : Core) (hmap : Mapped m buf n)
    (hn : n < 2 ^ 63) (h0 : s.x 0 = buf) (h2 : s.x 2 = BitVec.ofNat 64 n) :
    ∀ code ∈ [memset, memsetAsm], Returns code 0 s m fun s' m' => s'.x 0 = buf ∧
      ∀ c, m' c = if (c - buf).toNat < n then some ((s.x 1).setWidth 8) else m c := by
  intro code hcode
  obtain rfl : code = memset := by simpa [memsetAsm] using hcode
  refine start h0 fun s1 g0 g1 g2 g4 => ?_
  suffices h : Returns memset 5 s1 (filled m buf (s.x 1) 0) (Filled m buf (s.x 1) n) by
    rwa [filled, paste_zero] at h
  have hmsb := msb_count n 8 hn (by decide)
  refine .alus (show memset[5]? = some _ from rfl) ?_
  simp only [Alu.eval, Alu.flags, subFlags, Core.get_x, Core.opnd_imm, g2, h2, hmsb]
  have hx : ∀ i : Fin 31, i ≠ 2 →
      (s1.set (.x 2) (BitVec.ofNat 64 n - 8#64)).x i = s1.x i := fun i hi =>
    Core.set_x_ne s1 2 i _ hi
  have hat : ∀ f, At buf (s.x 1) 0 n 8
      { s1.set (.x 2) (BitVec.ofNat 64 n - 8#64) with flags := f } := fun f =>
    ⟨(hx 0 (by decide)).trans g0, (hx 1 (by decide)).trans g1, Core.set_x_self s1 2 _,
      ((hx 4 (by decide)).trans g4).trans (BitVec.add_zero buf).symm⟩
  refine .branch (show memset[6]? = some _ from rfl) rfl (fun ht => ?_) (fun hf => ?_)
  · exact tail (hat _) hmap hn (Nat.zero_add n) (of_decide_eq_true ht)
  · exact words (hat _) hmap hn (Nat.zero_add n) (Nat.not_lt.1 (of_decide_eq_false hf))

/-- 23 bytes at an odd address, of 64 that may be accessed. -/
theorem memset_fills_odd :
    let m : Mem := fun c => if c.toNat < 64 then some 0 else none
    let s : Core :=
      ⟨fun i => if i = 0 then 5 else if i = 1 then 0x3a5 else if i = 2 then 23 else 0,
        0, fun _ => 0, ⟨false, false, false, false⟩⟩
    ∀ code ∈ [memset, memsetAsm], Returns code 0 s m fun s' m' => s'.x 0 = 5 ∧
      ∀ c, m' c = if (c - 5).toNat < 23 then some 0xa5 else m c := by
  intro m s
  have hmapped : Mapped m 5 23 := by
    intro i hi
    have hlt : ((5 : Word) + BitVec.ofNat 64 i).toNat < 64 := by
      rw [BitVec.toNat_add, BitVec.toNat_ofNat]
      simp only [BitVec.ofNat_eq_ofNat, BitVec.toNat_ofNat]
      omega
    simp only [m, if_pos hlt, Option.isSome_some]
  have hbyte : (s.x 1).setWidth 8 = 0xa5 := by decide
  have h := memset_fills m 5 23 s hmapped (by decide) rfl rfl
  rwa [hbyte] at h

end SpringOs.Memset
