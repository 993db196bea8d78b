import SpringOs.Lib.Arm

/-!
Blocks of memory under the loads and stores of one processor.

* `Mapped`: a block may be accessed;
* `read_byte`, **`write_eq`**: loads and stores, byte by byte;
* `write_read`: a word that was read is written elsewhere as it was (`paste`);
* `Dir.done`: memory with a part of a block copied, in either direction;
* `Dir.paste_done`, `Dir.read_done`: the next store, and what a load sees that runs ahead of it.
-/

namespace SpringOs.Lib.Arm
open Function (update update_self update_of_ne)

/-- `n` bytes from `a` on may be accessed. -/
def Mapped (m : Mem) (a : Word) (n : Nat) : Prop := ∀ i < n, (m (a + BitVec.ofNat 64 i)).isSome

variable {m m' : Mem} {a b c v w : Word} {n i size j : Nat}

theorem toNat_ofNat_of_lt (h : i < 2 ^ 64) : (BitVec.ofNat 64 i).toNat = i := by
  rw [BitVec.toNat_ofNat]
  exact Nat.mod_eq_of_lt h

theorem add_ofNat_succ (a : Word) (i : Nat) :
    a + BitVec.ofNat 64 (i + 1) = a + 1 + BitVec.ofNat 64 i := by
  rw [Nat.add_comm, BitVec.ofNat_add, BitVec.add_assoc]
  rfl

theorem add_ofNat_add (a : Word) (i j : Nat) :
    a + BitVec.ofNat 64 i + BitVec.ofNat 64 j = a + BitVec.ofNat 64 (i + j) := by
  rw [BitVec.ofNat_add, BitVec.add_assoc]

theorem Mapped.succ (h : Mapped m a (n + 1)) : (m a).isSome ∧ Mapped m (a + 1) n := by
  refine ⟨by simpa using h 0 (by omega), fun i hi => ?_⟩
  rw [← add_ofNat_succ]
  exact h (i + 1) (by omega)

theorem read_congr (h : ∀ i < n, m (a + BitVec.ofNat 64 i) = m' (b + BitVec.ofNat 64 i)) :
    read m n a = read m' n b := by
  induction n generalizing a b with
  | zero => rfl
  | succ n ih =>
    have h0 : m a = m' b := by simpa using h 0 (by omega)
    have htail : read m n (a + 1) = read m' n (b + 1) := ih fun i hi => by
      rw [← add_ofNat_succ, ← add_ofNat_succ]
      exact h (i + 1) (by omega)
    rw [read, read, h0, htail]

theorem exists_read (h : Mapped m a n) : ∃ v, read m n a = some v := by
  induction n generalizing a with
  | zero => exact ⟨0, rfl⟩
  | succ n ih =>
    obtain ⟨v, hv⟩ := Option.isSome_iff_exists.1 h.succ.1
    obtain ⟨w, hw⟩ := ih h.succ.2
    exact ⟨_, by rw [read, hv, hw]; rfl⟩

theorem read_succ (h : read m (n + 1) a = some v) :
    ∃ x w, m a = some x ∧ read m n (a + 1) = some w ∧ v = x.setWidth 64 ||| w <<< 8 := by
  simp only [read, Option.bind_eq_bind, Option.bind_eq_some_iff, Option.pure_def,
    Option.some.injEq] at h
  obtain ⟨x, hx, w, hw, hv⟩ := h
  exact ⟨x, w, hx, hw, hv.symm⟩

theorem read_lt (h : read m n a = some v) : v.toNat < 2 ^ (8 * n) := by
  induction n generalizing a v with
  | zero =>
    cases h
    simp
  | succ n ih =>
    obtain ⟨x, w, -, hw, rfl⟩ := read_succ h
    have hlt := ih hw
    have hpow : 2 ^ (8 * (n + 1)) = 2 ^ (8 * n) * 2 ^ 8 := by rw [Nat.mul_add, Nat.pow_add]
    rw [BitVec.toNat_or]
    refine Nat.or_lt_two_pow ?_ ?_
    · have hx : x.toNat < 2 ^ 8 := x.isLt
      have h1 : 1 ≤ 2 ^ (8 * n) := Nat.one_le_two_pow
      rw [hpow, BitVec.toNat_setWidth]
      omega
    · rw [BitVec.toNat_shiftLeft, Nat.shiftLeft_eq, hpow]
      exact Nat.lt_of_le_of_lt (Nat.mod_le _ _) (Nat.mul_lt_mul_of_pos_right hlt (by decide))

theorem shiftRight_read {x : Byte} (h : read m n a = some w) (hn : n < 8) :
    (x.setWidth 64 ||| w <<< 8).setWidth 8 = x ∧ (x.setWidth 64 ||| w <<< 8) >>> 8 = w := by
  have hlt := read_lt h
  have hw : w.toNat < 2 ^ 56 := Nat.lt_of_lt_of_le hlt (Nat.pow_le_pow_right (by decide) (by omega))
  constructor
  · apply BitVec.eq_of_getLsbD_eq
    intro i hi
    simp only [BitVec.getLsbD_setWidth, BitVec.getLsbD_or, BitVec.getLsbD_shiftLeft]
    simp [hi, show i < 64 by omega]
  · apply BitVec.eq_of_getLsbD_eq
    intro i hi
    simp only [BitVec.getLsbD_ushiftRight, BitVec.getLsbD_setWidth, BitVec.getLsbD_or,
      BitVec.getLsbD_shiftLeft]
    rw [BitVec.getLsbD_of_ge x _ (by omega)]
    by_cases h56 : i < 56
    · simp [show 8 + i < 64 by omega]
    · have : w.getLsbD i = false := by
        rw [BitVec.getLsbD, Nat.testBit_lt_two_pow]
        exact Nat.lt_of_lt_of_le hw (Nat.pow_le_pow_right (by decide) (by omega))
      simp [this]

/-- Byte by byte. -/
theorem read_byte (h : read m n a = some v) (hn : n ≤ 8) (hi : i < n) :
    m (a + BitVec.ofNat 64 i) = some ((v >>> (8 * i)).setWidth 8) := by
  induction n generalizing a v i with
  | zero => omega
  | succ n ih =>
    obtain ⟨x, w, hx, hw, rfl⟩ := read_succ h
    obtain ⟨hbyte, hrest⟩ := shiftRight_read (x := x) hw (by omega)
    cases i with
    | zero => rw [BitVec.add_zero, hx, Nat.mul_zero, BitVec.ushiftRight_zero, hbyte]
    | succ i =>
      rw [add_ofNat_succ, ih hw (by omega) (by omega), Nat.mul_succ, Nat.add_comm,
        BitVec.shiftRight_add, hrest]

/-- **A store**, byte by byte. -/
theorem write_eq (v : Word) (hn : n < 2 ^ 64) (hm : Mapped m a n) :
    write m n a v = some fun c =>
      if (c - a).toNat < n then some ((v >>> (8 * (c - a).toNat)).setWidth 8) else m c := by
  induction n generalizing m a v with
  | zero =>
    refine congrArg some (funext fun c => ?_)
    exact (if_neg (Nat.not_lt_zero _)).symm
  | succ n ih =>
    obtain ⟨y, hy⟩ := Option.isSome_iff_exists.1 hm.succ.1
    have hm' : Mapped (update m a (some (v.setWidth 8))) (a + 1) n := fun i hi => by
      by_cases heq : a + 1 + BitVec.ofNat 64 i = a
      · rw [heq, update_self]
        rfl
      · rw [update_of_ne heq]
        exact hm.succ.2 i hi
    rw [write, hy]
    simp only [Option.bind_eq_bind, Option.bind_some]
    rw [ih _ (by omega) hm']
    refine congrArg some (funext fun c => ?_)
    by_cases hc : c = a
    · subst hc
      have hout : ¬ (c - (c + 1)).toNat < n := by bv_omega
      rw [if_neg hout, update_self, if_pos (by rw [BitVec.sub_self]; exact n.succ_pos),
        BitVec.sub_self]
      rfl
    · have hsub : (c - a).toNat = (c - (a + 1)).toNat + 1 := by bv_omega
      rw [update_of_ne hc, hsub, Nat.mul_succ, Nat.add_comm (8 * _), BitVec.shiftRight_add]
      by_cases hlt : (c - (a + 1)).toNat < n
      · rw [if_pos hlt, if_pos (by omega)]
      · rw [if_neg hlt, if_neg (by omega)]

/-- A block of `m` replaced by one of `m'`. -/
def paste (m : Mem) (a : Word) (m' : Mem) (b : Word) (n : Nat) : Mem := fun c =>
  if (c - a).toNat < n then m' (b + (c - a)) else m c

theorem paste_zero (m : Mem) (a : Word) (m' : Mem) (b : Word) : paste m a m' b 0 = m := by
  funext c
  exact if_neg (Nat.not_lt_zero (c - a).toNat)

theorem write_paste (hn : n ≤ 8) (hm : Mapped m a n)
    (h : ∀ i < n, m' (b + BitVec.ofNat 64 i) = some ((v >>> (8 * i)).setWidth 8)) :
    write m n a v = some (paste m a m' b n) := by
  rw [write_eq v (by omega) hm]
  refine congrArg some (funext fun c => ?_)
  unfold paste
  by_cases hc : (c - a).toNat < n
  · have hbyte := h _ hc
    rw [BitVec.ofNat_toNat, BitVec.setWidth_eq] at hbyte
    rw [if_pos hc, if_pos hc, hbyte]
  · rw [if_neg hc, if_neg hc]

/-- **A word that was read** is written elsewhere byte for byte. -/
theorem write_read (h : read m' n b = some v) (hn : n ≤ 8) (hm : Mapped m a n) :
    write m n a v = some (paste m a m' b n) :=
  write_paste hn hm fun _ => read_byte h hn

theorem Mapped.paste (h : Mapped m c size) (h' : Mapped m' b n) :
    Mapped (paste m a m' b n) c size := by
  intro i hi
  unfold Arm.paste
  split
  · next hin =>
    have := h' _ hin
    rwa [BitVec.ofNat_toNat, BitVec.setWidth_eq] at this
  · exact h i hi

theorem Mapped.sub (h : Mapped m a n) (hj : j + size ≤ n) :
    Mapped m (a + BitVec.ofNat 64 j) size := by
  intro i hi
  rw [add_ofNat_add]
  exact h (j + i) (by omega)

theorem paste_paste (h : i + j < 2 ^ 64) :
    paste (paste m a m' b i) (a + BitVec.ofNat 64 i) m' (b + BitVec.ofNat 64 i) j =
      paste m a m' b (i + j) := by
  funext c
  have hadd : b + BitVec.ofNat 64 i + (c - (a + BitVec.ofNat 64 i)) = b + (c - a) := by bv_omega
  have hsub : (c - (a + BitVec.ofNat 64 i)).toNat < j ↔
      i ≤ (c - a).toNat ∧ (c - a).toNat < i + j := by
    have := toNat_ofNat_of_lt (show i < 2 ^ 64 by omega)
    bv_omega
  simp only [paste, hadd, hsub]
  by_cases h1 : (c - a).toNat < i
  · rw [if_neg (by omega), if_pos h1, if_pos (by omega)]
  · by_cases h2 : (c - a).toNat < i + j
    · rw [if_pos (by omega), if_pos h2]
    · rw [if_neg (by omega), if_neg h1, if_neg h2]

theorem write_pair (hv : read m' 8 b = some v) (hw : read m' 8 (b + 8) = some w)
    (hm : Mapped m a 16) (hm' : Mapped m' b 16) :
    ∃ m1, write m 8 a v = some m1 ∧ write m1 8 (a + 8) w = some (paste m a m' b 16) := by
  have hlow : Mapped m a 8 := fun i hi => hm i (by omega)
  have hlow' : Mapped m' b 8 := fun i hi => hm' i (by omega)
  refine ⟨_, write_read hv (by decide) hlow, ?_⟩
  have hhigh : Mapped (paste m a m' b 8) (a + 8) 8 := (hm.sub (j := 8) (by omega)).paste hlow'
  rw [write_read hw (by decide) hhigh]
  exact congrArg some (paste_paste (i := 8) (j := 8) (by decide))

/-! ## Copies -/

/-- The bytes from `lo` up to `hi` of the block at `dst` are those of the block at `src`. -/
def copied (m : Mem) (dst src : Word) (lo hi : Nat) : Mem := fun c =>
  if lo ≤ (c - dst).toNat ∧ (c - dst).toNat < hi then m (src + (c - dst)) else m c

/-- A block is copied from its first byte upwards or from its last byte downwards. -/
inductive Dir
  | up
  | down

/-- Where the next `size` of `n` bytes are, after `k`. -/
def Dir.pos : Dir → Nat → Nat → Nat → Nat
  | .up, _, k, _ => k
  | .down, n, k, size => n - k - size

/-- Memory after `k` of `n` bytes. -/
def Dir.done (d : Dir) (m : Mem) (dst src : Word) (n k : Nat) : Mem :=
  match d with
  | .up => copied m dst src 0 k
  | .down => copied m dst src (n - k) n

/-- The copy does not overwrite what it is still to read. -/
def Dir.Safe (d : Dir) (dst src : Word) (n : Nat) : Prop :=
  match d with
  | .up => ∀ j < n, j ≤ (src + BitVec.ofNat 64 j - dst).toNat
  | .down => ∀ j < n, (src + BitVec.ofNat 64 j - dst).toNat ≤ j ∨
      n ≤ (src + BitVec.ofNat 64 j - dst).toNat

variable {d : Dir} {dst src : Word} {lo hi size j k : Nat}

theorem paste_copied {p : Nat} (hp : p + size < 2 ^ 64)
    (h : p = hi ∧ lo ≤ hi ∨ p + size = lo ∧ lo ≤ hi) :
    paste (copied m dst src lo hi) (dst + BitVec.ofNat 64 p) m (src + BitVec.ofNat 64 p) size =
      copied m dst src (min lo p) (max hi (p + size)) := by
  funext c
  have hadd : src + BitVec.ofNat 64 p + (c - (dst + BitVec.ofNat 64 p)) = src + (c - dst) := by
    bv_omega
  have hsub : (c - (dst + BitVec.ofNat 64 p)).toNat < size ↔
      p ≤ (c - dst).toNat ∧ (c - dst).toNat < p + size := by
    have := toNat_ofNat_of_lt (show p < 2 ^ 64 by omega)
    bv_omega
  simp only [paste, copied, hadd, hsub]
  by_cases h1 : p ≤ (c - dst).toNat ∧ (c - dst).toNat < p + size
  · rw [if_pos h1, if_pos (by omega)]
  · rw [if_neg h1]
    by_cases h2 : lo ≤ (c - dst).toNat ∧ (c - dst).toNat < hi
    · rw [if_pos h2, if_pos (by omega)]
    · rw [if_neg h2, if_neg (by omega)]

/-- The next bytes. -/
theorem Dir.paste_done (hk : k + size ≤ n) (hn : n < 2 ^ 64) :
    paste (d.done m dst src n k) (dst + BitVec.ofNat 64 (d.pos n k size)) m
      (src + BitVec.ofNat 64 (d.pos n k size)) size = d.done m dst src n (k + size) := by
  cases d with
  | up =>
    simp only [Dir.done, Dir.pos]
    rw [paste_copied (by omega) (.inl ⟨rfl, Nat.zero_le _⟩), Nat.zero_min,
      Nat.max_eq_right (by omega)]
  | down =>
    simp only [Dir.done, Dir.pos]
    rw [paste_copied (by omega) (.inr ⟨by omega, by omega⟩), Nat.min_eq_right (by omega),
      Nat.max_eq_left (by omega)]
    rw [show n - k - size = n - (k + size) by omega]

theorem copied_empty (m : Mem) (dst src : Word) (k : Nat) : copied m dst src k k = m := by
  funext c
  exact if_neg (by omega)

theorem Dir.done_zero : d.done m dst src n 0 = m := by
  cases d <;> exact copied_empty m dst src _

theorem Dir.done_all : d.done m dst src n n = copied m dst src 0 n := by
  cases d with
  | up => rfl
  | down => rw [Dir.done, Nat.sub_self]

theorem Mapped.done (hsrc : Mapped m src n) (hk : k ≤ n) (h : Mapped m a size) :
    Mapped (d.done m dst src n k) a size := by
  have hcopied : ∀ lo hi, hi ≤ n → Mapped (copied m dst src lo hi) a size := by
    intro lo hi hhi i hi'
    unfold copied
    split
    · next hin =>
      have := hsrc _ (Nat.lt_of_lt_of_le hin.2 hhi)
      rwa [BitVec.ofNat_toNat, BitVec.setWidth_eq] at this
    · exact h i hi'
  cases d with
  | up => exact hcopied _ _ hk
  | down => exact hcopied _ _ (Nat.le_refl n)

/-- A load ahead of the stores sees the memory as it was. -/
theorem Dir.read_done {p len : Nat} (h : d.Safe dst src n) (hk : k ≤ j) (hj : j + size ≤ n)
    (hp : d.pos n j size ≤ p) (hlen : p + len ≤ d.pos n j size + size) :
    read (d.done m dst src n k) len (src + BitVec.ofNat 64 p) =
      read m len (src + BitVec.ofNat 64 p) :=
  read_congr fun i hi => by
    rw [add_ofNat_add]
    cases d with
    | up | down =>
      simp only [Dir.pos] at hp hlen
      have := h (p + i) (by omega)
      exact if_neg (by omega)

end SpringOs.Lib.Arm
