import SpringOs.Qsort

/-!
`qsort` sorts. The words `p` and the shift `pshift` stand for a forest of Leonardo heaps
(`Encodes`), and each function of `qsort.c` does to the elements what its counterpart does to that
forest.

* `Encodes.pntz`, `Encodes.merge`, `Encodes.new`, `Encodes.split`: the arithmetic on `p`;
* `trinkle_eq`: `trinkle` settles an element in the forest;
* **`qsort_sorts`**: `qsort` returns with the elements rearranged and nothing else touched,
  whatever the comparison does; if it compares by a total preorder, the elements are sorted.
-/

namespace SpringOs.Qsort
open Lib.Leonardo Lib.Machine

/-! ## The words of orders -/

/-- A set bit for each order, the lowest one for `k`. The orders do not need the second word. -/
structure Encodes (p : Orders) (k : Nat) (ks : List Nat) : Prop where
  p1 : p.p1 = 0
  bits : ∀ i, p.p0.getLsbD i = decide (k + i ∈ k :: ks)
  sorted : (k :: ks).Pairwise (· < ·)
  small : ∀ j ∈ k :: ks, j < 64

theorem getLsbD_low {n : Nat} (hn : n < 64) (i : Nat) :
    (BitVec.ofNat 64 (2 ^ n - 1)).getLsbD i = decide (i < n) := by
  rw [BitVec.getLsbD_ofNat, Nat.testBit_two_pow_sub_one, ← Bool.decide_and, decide_eq_decide]
  omega

theorem getLsbD_one' (i : Nat) : (1 : BitVec 64).getLsbD i = decide (i = 0) := by
  rw [show (1 : BitVec 64) = BitVec.ofNat 64 (2 ^ 1 - 1) from rfl, getLsbD_low (by omega),
    decide_eq_decide]
  omega

variable {p : Orders} {k k' : Nat} {ks : List Nat}

theorem shr_eq (hp : p.p1 = 0) {n : Nat} (hn : n < 64) : shr p n = ⟨p.p0 >>> n, 0⟩ := by
  simp [shr, Nat.not_le.2 hn, hp]

theorem shl_eq (hp : p.p1 = 0) {n : Nat} (hn : 0 < n) (hn' : n < 64)
    (hfit : p.p0 >>> (64 - n) = 0) : shl p n = ⟨p.p0 <<< n, 0⟩ := by
  have hmod : (64 - n) % 64 = 64 - n := Nat.mod_eq_of_lt (by omega)
  simp only [shl, Nat.not_le.2 hn', if_false, hp, hmod, hfit]
  simp

theorem Encodes.lt (h : Encodes p k ks) {j : Nat} (hj : j ∈ ks) : k < j :=
  (List.pairwise_cons.1 h.sorted).1 j hj

theorem Encodes.eq_one_iff (h : Encodes p k ks) : p = ⟨1, 0⟩ ↔ ks = [] := by
  constructor
  · rintro rfl
    refine List.eq_nil_iff_forall_not_mem.2 fun j hj => ?_
    have hlt := h.lt hj
    have hbit := h.bits (j - k)
    rw [getLsbD_one'] at hbit
    simp [show k + (j - k) = j by omega, hj] at hbit
    omega
  · rintro rfl
    have hp0 : p.p0 = 1 := BitVec.eq_of_getLsbD_eq fun i _ => by
      rw [h.bits, getLsbD_one', decide_eq_decide]
      simp
    have hp1 := h.p1
    cases p
    exact congrArg₂ Orders.mk hp0 hp1

theorem sub_one_eq_xor {x : BitVec 64} (hx : x.getLsbD 0 = true) : x - 1 = x ^^^ 1 := by
  have hand : (x ^^^ 1) &&& 1 = 0#64 := BitVec.eq_of_getLsbD_eq fun i _ => by
    rw [BitVec.getLsbD_and, BitVec.getLsbD_xor, getLsbD_one']
    by_cases hi : i = 0 <;> simp [hi, hx]
  have hor : (x ^^^ 1) ||| 1 = x := BitVec.eq_of_getLsbD_eq fun i _ => by
    rw [BitVec.getLsbD_or, BitVec.getLsbD_xor, getLsbD_one']
    by_cases hi : i = 0 <;> simp [hi, hx]
  have hadd : (x ^^^ 1) + 1 = x := by rw [BitVec.add_eq_or_of_and_eq_zero _ _ hand, hor]
  rw [← hadd, BitVec.add_sub_cancel, hadd]

/-- The next tree. -/
theorem Encodes.pntz (h : Encodes p k (k' :: ks)) : pntz p = k' - k := by
  have hlt := h.lt (List.mem_cons_self)
  have hbit : ∀ i, (p.p0 - 1).getLsbD i =
      (decide (i ≠ 0) && decide (k + i ∈ k' :: ks)) := fun i => by
    rw [sub_one_eq_xor (by simp [h.bits]), BitVec.getLsbD_xor, getLsbD_one', h.bits]
    by_cases hi : i = 0
    · simp [hi]
    · simp [hi]
  have hset : (p.p0 - 1).getLsbD (k' - k) = true := by
    rw [hbit]
    simp [show k' - k ≠ 0 by omega, show k + (k' - k) = k' by omega]
  have hne : p.p0 - 1 ≠ 0#64 := by
    intro h0
    rw [h0] at hset
    simp at hset
  have hntz : ntz (p.p0 - 1) = (p.p0 - 1).ctz.toNat := rfl
  have htrue := BitVec.getLsbD_true_ctz_of_ne_zero hne
  have hfalse := fun i => BitVec.getLsbD_false_of_lt_ctz (i := i) (x := p.p0 - 1)
  rw [← hntz, hbit] at htrue
  simp only [Bool.and_eq_true, decide_eq_true_eq] at htrue
  have hle : ntz (p.p0 - 1) ≤ k' - k := by
    by_contra hn
    have hclear := hfalse (k' - k) (by rw [← hntz]; omega)
    rw [hset] at hclear
    cases hclear
  have hge : k' ≤ k + ntz (p.p0 - 1) := by
    rcases List.mem_cons.1 htrue.2 with heq | hmem
    · omega
    · have := (List.pairwise_cons.1 (List.pairwise_cons.1 h.sorted).2).1 _ hmem
      omega
  rw [Qsort.pntz, if_pos htrue.1]
  omega

theorem Encodes.next (h : Encodes p k (k' :: ks)) : Encodes (shr p (k' - k)) k' ks := by
  have hlt := h.lt (List.mem_cons_self)
  have hsmall := h.small k' (by simp)
  rw [shr_eq h.p1 (by omega)]
  refine ⟨rfl, fun i => ?_, (List.pairwise_cons.1 h.sorted).2, fun j hj => h.small j (by simp_all)⟩
  rw [BitVec.getLsbD_ushiftRight, h.bits, show k + (k' - k + i) = k' + i by omega,
    decide_eq_decide]
  simp [show k' + i ≠ k by omega]

theorem Encodes.mem_iff (h : Encodes p k ks) : k + 1 ∈ ks ↔ ks.head? = some (k + 1) := by
  cases ks with
  | nil => simp
  | cons k' ks =>
    have hlt := h.lt (List.mem_cons_self)
    have hrest := (List.pairwise_cons.1 (List.pairwise_cons.1 h.sorted).2).1
    simp only [List.mem_cons, List.head?_cons, Option.some.injEq]
    constructor
    · rintro (heq | hmem)
      · exact heq.symm
      · have := hrest _ hmem
        omega
    · exact fun heq => .inl heq.symm

theorem Encodes.and_three_iff (h : Encodes p k ks) :
    p.p0 &&& 3 = 3 ↔ ks.head? = some (k + 1) := by
  have hthree : ∀ i, (3 : BitVec 64).getLsbD i = decide (i < 2) := getLsbD_low (n := 2) (by omega)
  rw [← h.mem_iff]
  constructor
  · intro heq
    have hbit := congrArg (·.getLsbD 1) heq
    simp only [BitVec.getLsbD_and, hthree, h.bits] at hbit
    simpa using hbit
  · intro hmem
    refine BitVec.eq_of_getLsbD_eq fun i _ => ?_
    rw [BitVec.getLsbD_and, hthree, h.bits]
    match i with
    | 0 => simp
    | 1 => simp [hmem]
    | i + 2 => simp

/-- The last two trees become one. -/
theorem Encodes.merge (h : Encodes p k ((k + 1) :: ks)) (hks : ∀ j ∈ ks, k + 2 < j)
    (hk : k + 2 < 64) :
    Encodes ⟨(shr p 2).p0 ||| 1, (shr p 2).p1⟩ (k + 2) ks := by
  rw [shr_eq h.p1 (by omega)]
  refine ⟨rfl, fun i => ?_, List.pairwise_cons.2 ⟨hks, (List.pairwise_cons.1
    (List.pairwise_cons.1 h.sorted).2).2⟩, fun j hj => ?_⟩
  · simp only [BitVec.getLsbD_or, BitVec.getLsbD_ushiftRight, h.bits, getLsbD_one']
    by_cases hi : i = 0
    · simp [hi]
    · simp [hi, show k + (2 + i) = k + 2 + i by omega, show k + 2 + i ≠ k by omega,
        show k + 2 + i ≠ k + 1 by omega]
  · rcases List.mem_cons.1 hj with rfl | hj
    · exact hk
    · exact h.small j (by simp [hj])

theorem Encodes.shl (h : Encodes p k ks) {j : Nat} (hj : j < k) :
    shl p (k - j) = ⟨p.p0 <<< (k - j), 0⟩ := by
  have hk := h.small k (by simp)
  refine shl_eq h.p1 (by omega) (by omega) (BitVec.eq_of_getLsbD_eq fun i _ => ?_)
  rw [BitVec.getLsbD_ushiftRight, h.bits, show k + (64 - (k - j) + i) = j + 64 + i by omega]
  have hout : j + 64 + i ∉ k :: ks := fun hmem => by
    have := h.small _ hmem
    omega
  simpa using hout

/-- A tree of order `j` comes. -/
theorem Encodes.new {j : Nat} (h : Encodes p k ks) (hj : j < k) :
    Encodes ⟨(Qsort.shl p (k - j)).p0 ||| 1, (Qsort.shl p (k - j)).p1⟩ j (k :: ks) := by
  have hk := h.small k (by simp)
  rw [h.shl hj]
  refine ⟨rfl, fun i => ?_, List.pairwise_cons.2 ⟨fun k' hk' => ?_, h.sorted⟩, fun k' hk' => ?_⟩
  · simp only [BitVec.getLsbD_or, BitVec.getLsbD_shiftLeft, h.bits, getLsbD_one']
    by_cases hi0 : i = 0
    · simp [hi0]
    · by_cases hi : i < k - j
      · have hout : j + i ∉ k :: ks := fun hmem => by
          rcases List.mem_cons.1 hmem with heq | hmem
          · omega
          · have := h.lt hmem
            omega
        simpa [hi0, hi] using hout
      · rw [show k + (i - (k - j)) = j + i by omega]
        by_cases hi64 : i < 64
        · simp [hi0, hi, hi64]
        · have hout : j + i ∉ k :: ks := fun hmem => by
            have := h.small _ hmem
            omega
          simpa [hi0, hi64] using hout
  · rcases List.mem_cons.1 hk' with rfl | hk'
    · exact hj
    · exact hj.trans (h.lt hk')
  · rcases List.mem_cons.1 hk' with rfl | hk'
    · exact hj.trans hk
    · exact h.small k' hk'

/-- The root of the last tree leaves: first only its left subtree is in the forest. -/
theorem Encodes.left (h : Encodes p (k + 2) ks) :
    Encodes (shr ⟨(Qsort.shl p 2).p0 ^^^ 7, (Qsort.shl p 2).p1⟩ 1) (k + 1) ks := by
  have hk := h.small (k + 2) (by simp)
  have hseven : ∀ i, (7 : BitVec 64).getLsbD i = decide (i < 3) := getLsbD_low (n := 3) (by omega)
  have hshl := h.shl (j := k) (by omega)
  rw [show k + 2 - k = 2 by omega] at hshl
  rw [hshl, shr_eq rfl (by omega)]
  refine ⟨rfl, fun i => ?_, List.pairwise_cons.2 ⟨fun k' hk' => ?_,
    (List.pairwise_cons.1 h.sorted).2⟩, fun k' hk' => ?_⟩
  · simp only [BitVec.getLsbD_ushiftRight, BitVec.getLsbD_xor, BitVec.getLsbD_shiftLeft, h.bits,
      hseven]
    match i with
    | 0 => simp
    | 1 =>
      have hout : k + 1 + 1 ∉ ks := fun hmem => by
        have := h.lt hmem
        omega
      simp [hout]
    | i + 2 =>
      rw [show k + 2 + (1 + (i + 2) - 2) = k + 1 + (i + 2) by omega]
      by_cases hi : 1 + (i + 2) < 64
      · simp [hi, show ¬ 1 + (i + 2) < 2 by omega, show ¬ 1 + (i + 2) < 3 by omega,
          show k + 1 + (i + 2) ≠ k + 2 by omega]
      · have hout : k + 1 + (i + 2) ∉ ks := fun hmem => by
          have := h.small _ (List.mem_cons_of_mem _ hmem)
          omega
        simp [hi, hout, show ¬ 1 + (i + 2) < 3 by omega]
  · have := h.lt hk'
    omega
  · rcases List.mem_cons.1 hk' with rfl | hk'
    · omega
    · exact h.small k' (by simp [hk'])

/-! ## `trinkle` -/

variable {base width nel : Nat} {cmp : List UInt8 → List UInt8 → Int} {mem mem' : Mem}
  {lp : List Nat}

def root (base width : Nat) (ks : List Nat) : Nat := base + (size ks - 1) * width

theorem trinkleLoop_cons (hmap : Mapped base width nel mem) (hlp : Table width nel lp) {r₀ : Nat}
    (hr₀ : r₀ < nel) {fuel : Nat} {t : Bool} {ar : List Nat} (henc : Encodes p k (k' :: ks))
    (hsize : size (k :: k' :: ks) ≤ nel) (hlen : ar.length < arSize) :
    trinkleLoop width cmp lp mem (base + r₀ * width) (fuel + 1)
      ⟨root base width (k :: k' :: ks), p, k, t, ar⟩ =
      if Stops cmp (elems base width mem) (elems base width mem r₀) t k (k' :: ks) then
        some ⟨root base width (k :: k' :: ks), p, k, t, ar⟩
      else trinkleLoop width cmp lp mem (base + r₀ * width) fuel ⟨root base width (k' :: ks),
        shr p (k' - k), k', false, ar ++ [root base width (k' :: ks)]⟩ := by
  have hone : p ≠ ⟨1, 0⟩ := fun h => by simpa using henc.eq_one_iff.1 h
  have hpos := leo_pos k
  have hpos' := leo_pos k'
  have hlt := henc.lt List.mem_cons_self
  obtain ⟨R, hR⟩ : ∃ R, R = size (k :: k' :: ks) - 1 := ⟨_, rfl⟩
  obtain ⟨S, hS⟩ : ∃ S, S = size (k' :: ks) - 1 := ⟨_, rfl⟩
  have hRS : R = S + leo k := by
    simp only [size_cons] at hR hS
    omega
  have hpush : ∀ q, push ar q = some (ar ++ [q]) := fun q => if_pos hlen
  rw [size_cons, size_cons] at hsize hR
  rw [size_cons] at hS
  simp only [Stops, root, size_cons, ← hR, ← hS, trinkleLoop, hone, if_false, hlp k (by omega),
    ptr_sub (show leo k ≤ R by omega), show R - leo k = S by omega, henc.pntz, Option.bind_eq_bind,
    Option.bind_some, hpush, show k + (k' - k) = k' by omega,
    compare_eq hmap (show S < nel by omega) hr₀, List.cons_ne_nil, false_or]
  by_cases hle : cmp (elems base width mem S) (elems base width mem r₀) ≤ 0
  · simp [hle]
  · by_cases hk : t = false ∧ 1 < k
    · obtain ⟨j, rfl⟩ : ∃ j, k = j + 2 := ⟨k - 2, by omega⟩
      obtain ⟨hleo, hj, -⟩ := leo_add_two j
      simp only [hle, hk, if_false, Bool.not_false, true_and, if_true,
        Nat.add_sub_cancel, hlp j (by omega), ptr_pred (show 0 < R by omega),
        ptr_sub (show leo j ≤ R - 1 by omega), Option.bind_some, false_or, show 2 ≤ j + 2 by omega,
        compare_eq hmap (show R - 1 < nel by omega) (show S < nel by omega),
        compare_eq hmap (show R - 1 - leo j < nel by omega) (show S < nel by omega)]
      by_cases hr : 0 ≤ cmp (elems base width mem (R - 1)) (elems base width mem S) <;>
        by_cases hl : 0 ≤ cmp (elems base width mem (R - 1 - leo j)) (elems base width mem S) <;>
        simp [hr, hl]
    · have hk' : ¬ (t = false ∧ 2 ≤ k ∧ (0 ≤ cmp (elems base width mem (R - 1))
          (elems base width mem S) ∨ 0 ≤ cmp (elems base width mem (R - 1 - leo (k - 2)))
          (elems base width mem S))) := fun h => hk ⟨h.1, h.2.1⟩
      simp only [hle, hk', or_self, if_false, Bool.not_eq_true', hk]
      rfl

variable (cmp) in
theorem trinkleLoop_eq (hmap : Mapped base width nel mem) (hlp : Table width nel lp) {r₀ : Nat}
    (hr₀ : r₀ < nel) {fuel : Nat} (t : Bool) (ar : List Nat) (henc : Encodes p k ks)
    (hsize : size (k :: ks) ≤ nel) (hlen : ar.length + ks.length ≤ arSize)
    (hfuel : ks.length < fuel) :
    ∃ p' k' ks' path t', climb cmp (elems base width mem) (elems base width mem r₀) t (k :: ks) =
        (path, k' :: ks', t') ∧ Encodes p' k' ks' ∧ size (k' :: ks') ≤ size (k :: ks) ∧
      trinkleLoop width cmp lp mem (base + r₀ * width) fuel
        ⟨root base width (k :: ks), p, k, t, ar⟩ =
        some ⟨root base width (k' :: ks'), p', k', t',
          ar ++ path.map fun i => base + i * width⟩ := by
  induction ks generalizing p k fuel t ar with
  | nil =>
    obtain ⟨fuel, rfl⟩ : ∃ n, fuel = n + 1 := ⟨fuel - 1, by simp at hfuel; omega⟩
    refine ⟨p, k, [], [], t, ?_, henc, le_rfl, ?_⟩
    · rw [climb, if_pos (.inl rfl)]
    · simp [trinkleLoop, henc.eq_one_iff.2 rfl]
  | cons k₁ ks ih =>
    simp only [List.length_cons] at hlen hfuel
    obtain ⟨fuel, rfl⟩ : ∃ n, fuel = n + 1 := ⟨fuel - 1, by omega⟩
    rw [trinkleLoop_cons hmap hlp hr₀ henc hsize (by omega), climb]
    by_cases hs : Stops cmp (elems base width mem) (elems base width mem r₀) t k (k₁ :: ks)
    · exact ⟨p, k, k₁ :: ks, [], t, if_pos hs, henc, le_rfl, by simp [hs]⟩
    · obtain ⟨p', k', ks', path, t', hclimb, henc', hle, hrun⟩ := ih false
        (ar ++ [root base width (k₁ :: ks)]) henc.next
        (by rw [size_cons] at hsize; omega) (by simp; omega) (by omega : ks.length < fuel)
      refine ⟨p', k', ks', (size (k₁ :: ks) - 1) :: path, t', ?_, henc', ?_, ?_⟩
      · rw [if_neg hs, hclimb]
      · rw [size_cons k]
        omega
      · rw [if_neg hs, hrun]
        simp [root]

theorem Encodes.length_lt (h : Encodes p k ks) : ks.length < 64 := by
  have hsub : (k :: ks).Subperm (List.range 64) :=
    List.Nodup.subperm (h.sorted.imp ne_of_lt) fun j hj => List.mem_range.2 (h.small j hj)
  have hlen := hsub.length_le
  simp only [List.length_cons, List.length_range] at hlen
  omega

variable (cmp) in
/-- **`trinkle`** settles an element in the forest. -/
theorem trinkle_eq (hmap : Mapped base width nel mem) (hlp : Table width nel lp) (fuel : Nat)
    (t : Bool) (henc : Encodes p k ks) (hsize : size (k :: ks) ≤ nel) (hfuel : ks.length < fuel) :
    ∃ mem', trinkle width cmp lp fuel mem (root base width (k :: ks)) p k t = some mem' ∧
      Moved base width nel mem mem' (settle cmp (elems base width mem)
        (elems base width mem (size (k :: ks) - 1)) t (k :: ks)) := by
  have hlen := henc.length_lt
  have hleo := leo_pos k
  have hr : size (k :: ks) - 1 < nel := by
    rw [size_cons] at hsize ⊢
    omega
  obtain ⟨p', k', ks', path, t', hclimb, henc', hle, hrun⟩ := trinkleLoop_eq cmp
    hmap hlp hr t [root base width (k :: ks)] henc hsize (by simp [arSize]; omega) hfuel
  obtain ⟨hin, hplen, hlast⟩ := climb_spec hclimb
  simp only [trinkle, settle, hclimb]
  change trinkleLoop width cmp lp mem (root base width (k :: ks)) fuel _ = _ at hrun
  simp only [hrun, Option.bind_eq_bind, Option.bind_some]
  cases t' with
  | true => exact ⟨mem, rfl, rfl, hmap, fun _ _ => rfl⟩
  | false =>
    obtain ⟨mem₁, hcycle, hel, hmap₁, hout⟩ := cycle_shift (size (k :: ks) - 1) path
      hmap (fun i hi => by
        rcases List.mem_cons.1 hi with rfl | hi
        · exact hr
        · exact (hin i hi).trans_le hsize) (by simp [arSize] at hplen ⊢; omega)
    have hleo' := leo_pos k'
    rw [size_cons] at hle
    obtain ⟨mem₂, hsift, hel₂, hmap₂, hout₂⟩ := sift_eq cmp (r := size (k' :: ks') - 1)
      (k := k') hmap₁ hlp (by simp; omega) (by simp; omega) (henc'.small k' (by simp))
    refine ⟨mem₂, ?_, ?_, hmap₂, hout.trans hout₂⟩
    · simp only [Bool.false_eq_true, if_false]
      change (cycle width mem
        (((size (k :: ks) - 1) :: path).map fun i => base + i * width)).bind _ = _
      rw [hcycle]
      exact hsift
    · rw [hel₂, hel, hlast]

/-! ## The table -/

theorem leo_mul_lt (hwidth : nel * width ≤ 2 ^ 62) (hnel : 0 < nel) {m : Nat}
    (hm : ∀ j, 2 ≤ j → j < m + 2 → leo j < nel) : leo (m + 2) * width < 2 ^ 64 := by
  have hone : 1 * width ≤ nel * width := Nat.mul_le_mul_right width hnel
  cases m with
  | zero =>
    simp only [leo]
    omega
  | succ m =>
    have hprev := hm (m + 2) (by omega) (by omega)
    have hmono : leo (m + 1) ≤ leo (m + 2) := leo_le_succ (m + 1)
    have hleo : leo (m + 1 + 2) = leo (m + 1) + leo (m + 2) + 1 := rfl
    have hle : leo (m + 1 + 2) * width ≤ (2 * nel) * width := Nat.mul_le_mul_right width (by omega)
    rw [Nat.mul_assoc] at hle
    omega

theorem lpLoop_eq (hw : 0 < width) (hwidth : nel * width ≤ 2 ^ 62) (hnel : 0 < nel)
    (hlt : nel < leo 64) {n m : Nat} (hnm : n + (m + 2) = lpSize)
    (hm : ∀ j, 2 ≤ j → j < m + 2 → leo j < nel) :
    ∃ lp, lpLoop width (nel * width) n ((List.range (m + 2)).map (leo · * width)) = some lp ∧
      Table width nel lp := by
  induction n generalizing m with
  | zero =>
    have := hm 64 (by omega) (by simp only [lpSize] at hnm; omega)
    omega
  | succ n ih =>
    obtain ⟨hleo, -⟩ := leo_add_two m
    have hnext : (leo m * width + leo (m + 1) * width + width) % 2 ^ 64 = leo (m + 2) * width := by
      rw [← Nat.mod_eq_of_lt (leo_mul_lt hwidth hnel hm), hleo, Nat.add_mul, Nat.add_mul,
        Nat.one_mul]
    have hrange : (List.range (m + 2)).map (leo · * width) ++ [leo (m + 2) * width] =
        (List.range (m + 1 + 2)).map (leo · * width) := by
      rw [List.range_succ (n := m + 2), List.map_append]
      rfl
    have hstep : lpLoop width (nel * width) (n + 1) ((List.range (m + 2)).map (leo · * width)) =
        if leo (m + 2) * width < nel * width then
          lpLoop width (nel * width) n ((List.range (m + 1 + 2)).map (leo · * width))
        else some ((List.range (m + 1 + 2)).map (leo · * width)) := by
      have hget : ∀ i < m + 2, ((List.range (m + 2)).map (leo · * width))[i]? =
          some (leo i * width) := fun i hi => by simp [hi]
      simp only [lpLoop, List.length_map, List.length_range, hget m (by omega),
        hget (m + 1) (by omega), show m + 2 - 2 = m by omega, show m + 2 - 1 = m + 1 by omega,
        Option.bind_eq_bind, Option.bind_some, hnext, hrange]
    rw [hstep]
    by_cases hmore : leo (m + 2) < nel
    · rw [if_pos (Nat.mul_lt_mul_of_pos_right hmore hw)]
      refine ih (by omega) fun j hj hjm => ?_
      by_cases hj' : j = m + 2
      · rwa [hj']
      · exact hm j hj (by omega)
    · rw [if_neg fun h => hmore (Nat.lt_of_mul_lt_mul_right h)]
      refine ⟨_, rfl, fun k hk => ?_⟩
      have hkm : k < m + 1 + 2 := by
        by_contra hge
        have := leo_lt (j := m + 2) (k := k) (by omega) (by omega)
        omega
      simp [hkm]

/-! ## The two loops -/

def contents (base width nel : Nat) (mem : Mem) : List (List UInt8) :=
  (List.range nel).map (elems base width mem)

/-- The state stands for a forest, on the elements that were there at the start. -/
structure Forest (base width nel : Nat) (mem : Mem) (s : State) (k : Nat) (ks : List Nat) :
    Prop where
  enc : Encodes s.p k ks
  pshift : s.pshift = k
  head : s.head = root base width (k :: ks)
  fits : size (k :: ks) ≤ nel
  mapped : Mapped base width nel s.mem
  outside : SameOutside base width nel mem s.mem
  perm : (contents base width nel s.mem).Perm (contents base width nel mem)

variable {s : State} {fuel : Nat}

theorem length_le_size (ks : List Nat) : ks.length ≤ size ks := by
  induction ks with
  | nil => simp
  | cons k ks ih =>
    have hpos := leo_pos k
    simp
    omega

theorem order_lt (hnel : nel < leo 64) (h : leo k ≤ nel) : k < 64 := by
  by_contra hk
  have := leo_mono (Nat.not_lt.1 hk)
  omega

variable (cmp) in
theorem tidy_perm (f : Nat → List UInt8) {n : Nat} (h : size (k :: ks) ≤ n) :
    ((List.range n).map (tidy cmp n f k ks)).Perm ((List.range n).map f) := by
  have hpos := leo_pos k
  unfold tidy
  split
  · exact settle_self_perm f false k ks h
  · have hperm := sift_perm cmp f (f (size (k :: ks) - 1)) (k := k)
      (r := size (k :: ks) - 1) (n := n) (by simp; omega) (by simp at h ⊢; omega)
    rwa [Function.update_eq_self] at hperm

theorem ptr_succ {r : Nat} (h : 0 < r) : base + (r - 1) * width + width = base + r * width := by
  obtain ⟨m, rfl⟩ : ∃ m, r = m + 1 := ⟨r - 1, by omega⟩
  rw [Nat.add_sub_cancel, Nat.add_mul]
  omega

/-- The condition under which the order of the roots is restored. -/
theorem final_iff (hw : 0 < width) :
    base + (nel - 1) * width - root base width (k :: ks) ≤ leo (k - 1) * width ↔
      Final nel k ks := by
  have hpos := leo_pos k
  rw [root, Nat.add_sub_add_left, ← Nat.sub_mul, Nat.mul_le_mul_right_iff hw, Final]
  simp
  omega

theorem merge_gap (henc : Encodes p k ((k + 1) :: ks)) (hshape : Shape k ((k + 1) :: ks)) :
    ∀ j ∈ ks, k + 2 < j := by
  cases ks with
  | nil => simp
  | cons k' ks =>
    have hgap := (List.isChain_cons_cons.1 hshape.2.2).1
    have hsorted := (List.pairwise_cons.1 (List.pairwise_cons.1 henc.sorted).2).2
    intro j hj
    rcases List.mem_cons.1 hj with rfl | hj
    · omega
    · have := (List.pairwise_cons.1 hsorted).1 j hj
      omega

variable (cmp) in
theorem growRound_eq (hlp : Table width nel lp) (hw : 0 < width) (hnel : nel < leo 64)
    (hfuel : nel ≤ fuel) (h : Forest base width nel mem s k ks) (hshape : Shape k ks)
    (hmore : size (k :: ks) < nel) :
    ∃ t, growRound width cmp lp fuel (base + (nel - 1) * width) s = some t ∧
      Forest base width nel mem t (joined k ks).1 (joined k ks).2 ∧
      elems base width t.mem = tidy cmp nel (elems base width s.mem) k ks := by
  obtain ⟨henc, rfl, hhead, hfits, hmap, hout, hperm⟩ := h
  have hlen := length_le_size (s.pshift :: ks)
  have hpos := leo_pos s.pshift
  have hmono := leo_mono (Nat.sub_le s.pshift 1)
  simp only [List.length_cons] at hlen
  have hroot : size (s.pshift :: ks) - 1 < nel := by
    simp at hfits ⊢
    omega
  have hfit : leo s.pshift ≤ size (s.pshift :: ks) - 1 + 1 := by simp; omega
  have hsize := size_joined s.pshift ks
  have hnext : s.head + width =
      root base width ((joined s.pshift ks).1 :: (joined s.pshift ks).2) := by
    rw [hhead, root, root, hsize, Nat.add_sub_cancel, ptr_succ (by simp; omega)]
  obtain ⟨mem₁, hsift, hel₁, hmap₁, hout₁⟩ := sift_eq cmp hmap hlp hroot hfit
    (henc.small s.pshift (by simp))
  change sift width cmp lp s.mem (root base width (s.pshift :: ks)) s.pshift = _ at hsift
  obtain ⟨mem₂, htrinkle, hel₂, hmap₂, hout₂⟩ := trinkle_eq cmp hmap hlp fuel false henc hfits
    (by omega)
  have htidy := tidy_perm cmp (elems base width s.mem) hfits
  by_cases hne : ks.head? = some (s.pshift + 1)
  · obtain ⟨ks, rfl⟩ := eq_cons_of_head? hne
    have htidy' : tidy cmp nel (elems base width s.mem) s.pshift ((s.pshift + 1) :: ks) =
        elems base width mem₁ := by
      rw [hel₁, tidy, if_neg (by simp)]
    simp only [joined_merge] at hnext hsize ⊢
    rw [htidy'] at htidy ⊢
    have hsmall : s.pshift + 2 < 64 := order_lt hnel (by
      rw [size_cons] at hsize
      omega)
    refine ⟨⟨mem₁, s.head + width, ⟨(shr s.p 2).p0 ||| 1, (shr s.p 2).p1⟩, s.pshift + 2⟩, ?_,
      ⟨henc.merge (merge_gap henc hshape) hsmall, rfl, hnext, by omega, hmap₁, hout.trans hout₁,
        htidy.trans hperm⟩, rfl⟩
    simp only [growRound, if_pos (henc.and_three_iff.2 hne), hhead, hsift, Option.bind_eq_bind,
      Option.bind_some]
    rfl
  · obtain ⟨hk, hgaps⟩ := hshape.gaps hne
    obtain ⟨j, hj⟩ : ∃ j, j = if s.pshift = 1 then 0 else 1 := ⟨_, rfl⟩
    have hjk : j < s.pshift := by
      rw [hj]
      split <;> omega
    have hshl : (if s.pshift = 1 then shl s.p 1 else shl s.p (s.pshift - 1)) =
        shl s.p (s.pshift - j) := by
      rw [hj]
      split
      · next h1 => rw [h1]
      · rfl
    simp only [joined_new hne, ← hj] at hnext hsize ⊢
    have hlp' := hlp (s.pshift - 1) (by simp at hfits; omega)
    simp only [growRound, if_neg (mt henc.and_three_iff.1 hne), hhead, hlp', hshl, ← hj,
      Option.bind_eq_bind, Option.bind_some, if_neg (show s.pshift ≠ 0 by omega)]
    by_cases hfin : Final nel s.pshift ks
    · have htidy' : tidy cmp nel (elems base width s.mem) s.pshift ks = elems base width mem₂ := by
        rw [hel₂, tidy, if_pos ⟨hne, hfin⟩]
      rw [htidy'] at htidy ⊢
      refine ⟨⟨mem₂, s.head + width, ⟨(shl s.p (s.pshift - j)).p0 ||| 1,
        (shl s.p (s.pshift - j)).p1⟩, j⟩, ?_, ⟨henc.new hjk, rfl, hnext, by omega, hmap₂,
        hout.trans hout₂, htidy.trans hperm⟩, rfl⟩
      rw [if_pos ((final_iff hw).2 hfin), htrinkle, hhead]
      rfl
    · have htidy' : tidy cmp nel (elems base width s.mem) s.pshift ks = elems base width mem₁ := by
        rw [hel₁, tidy, if_neg (by simp [hfin])]
      rw [htidy'] at htidy ⊢
      refine ⟨⟨mem₁, s.head + width, ⟨(shl s.p (s.pshift - j)).p0 ||| 1,
        (shl s.p (s.pshift - j)).p1⟩, j⟩, ?_, ⟨henc.new hjk, rfl, hnext, by omega, hmap₁,
        hout.trans hout₁, htidy.trans hperm⟩, rfl⟩
      rw [if_neg fun h => hfin ((final_iff hw).1 h), hsift, hhead]
      rfl

theorem root_pred (h : size ks + 1 = size (k :: ks')) (hks : ks ≠ []) :
    root base width (k :: ks') - width = root base width ks := by
  rw [root, ← h, Nat.add_sub_cancel, ptr_pred (size_pos hks), root]

variable (cmp lp fuel) in
theorem shrinkRound_single (h : Forest base width nel mem s k (k' :: ks)) (hk : k ≤ 1) :
    ∃ t, shrinkRound width cmp lp fuel s = some t ∧ t.mem = s.mem ∧
      Forest base width nel mem t k' ks := by
  obtain ⟨henc, hpshift, hhead, hfits, hmap, hout, hperm⟩ := h
  have hlt := henc.lt List.mem_cons_self
  have hleo : leo k = 1 := by
    match k with
    | 0 => rfl
    | 1 => rfl
  refine ⟨⟨s.mem, s.head - width, shr s.p (k' - k), k'⟩, ?_, rfl, henc.next, rfl, ?_, ?_, hmap,
    hout, hperm⟩
  · simp only [shrinkRound, hpshift, if_pos hk, henc.pntz, show k + (k' - k) = k' by omega]
    rfl
  · simp only [hhead]
    exact root_pred (by simp [hleo]; omega) (by simp)
  · rw [size_cons] at hfits
    omega

variable (cmp) in
theorem shrinkRound_split (hlp : Table width nel lp) (hfuel : nel ≤ fuel)
    (h : Forest base width nel mem s (k + 2) ks) :
    ∃ t, shrinkRound width cmp lp fuel s = some t ∧
      elems base width t.mem = (split cmp (elems base width s.mem) (k + 2) ks).1 ∧
      Forest base width nel mem t k ((k + 1) :: ks) := by
  obtain ⟨henc, hpshift, hhead, hfits, hmap, hout, hperm⟩ := h
  obtain ⟨hleo, hpos₀, hpos₁⟩ := leo_add_two k
  have hlen := length_le_size ks
  simp only [size_cons] at hfits
  have hleft : s.head - leo k * width - width = root base width ((k + 1) :: ks) := by
    rw [hhead, root, ptr_sub (by simp; omega), ptr_pred (by simp; omega), root]
    congr 2
    simp only [size_cons]
    omega
  obtain ⟨mem₁, htrinkle₁, hel₁, hmap₁, hout₁⟩ := trinkle_eq cmp hmap hlp fuel true
    henc.left (by simp; omega) (by omega)
  have henc' := henc.left.new (j := k) (by omega)
  rw [show k + 1 - k = 1 by omega] at henc'
  obtain ⟨mem₂, htrinkle₂, hel₂, hmap₂, hout₂⟩ := trinkle_eq cmp hmap₁ hlp fuel true
    henc' (by simp; omega) (by simp; omega)
  have hel : elems base width mem₂ = (split cmp (elems base width s.mem) (k + 2) ks).1 := by
    rw [hel₂, hel₁]
    rfl
  have hroot : s.head - width = root base width (k :: (k + 1) :: ks) := by
    rw [hhead]
    exact root_pred (size_split cmp (elems base width s.mem) (k + 2) ks) (by simp)
  refine ⟨⟨mem₂, s.head - width, _, k⟩, ?_, hel, henc', rfl, hroot, by simp; omega, hmap₂,
    hout.trans (hout₁.trans hout₂), ?_⟩
  · simp only [shrinkRound, hpshift, if_neg (show ¬ k + 2 ≤ 1 by omega), Nat.add_sub_cancel,
      hlp k (by omega), Option.bind_eq_bind, Option.bind_some, hleft, htrinkle₁, hroot, htrinkle₂]
    rfl
  · rw [contents, hel]
    exact (split_perm (by simp [split]; omega)).trans hperm

/-! ## The function -/

def Grows (base width nel : Nat) (cmp : List UInt8 → List UInt8 → Int) (mem : Mem) (s : State) :
    Prop :=
  ∃ k ks, Forest base width nel mem s k ks ∧ Shape k ks ∧
    (Ordered cmp → Growing cmp nel (elems base width s.mem) k ks)

def Shrinks (base width nel : Nat) (cmp : List UInt8 → List UInt8 → Int) (mem : Mem) (s : State) :
    Prop :=
  ∃ k ks, Forest base width nel mem s k ks ∧ (k = 0 → ks ≠ []) ∧
    (Ordered cmp → Shrinking cmp (elems base width s.mem) nel (k :: ks))

theorem Forest.right (h : Forest base width nel mem s k ks) (hw : 0 < width) :
    (base + (nel - 1) * width - s.head) / width = nel - size (k :: ks) := by
  have hpos := leo_pos k
  rw [h.head, root, Nat.add_sub_add_left, ← Nat.sub_mul, Nat.mul_div_cancel _ hw]
  simp
  omega

theorem Forest.left (h : Forest base width nel mem s k ks) (hw : 0 < width) :
    (s.head - base) / width = size (k :: ks) - 1 := by
  rw [h.head, root, Nat.add_sub_cancel_left, Nat.mul_div_cancel _ hw]

theorem Grows.round (hlp : Table width nel lp) (hw : 0 < width) (hnel : nel < leo 64)
    (hfuel : nel ≤ fuel) (h : Grows base width nel cmp mem s)
    (hmore : s.head < base + (nel - 1) * width) :
    ∃ t, growRound width cmp lp fuel (base + (nel - 1) * width) s = some t ∧
      Grows base width nel cmp mem t ∧ (base + (nel - 1) * width - t.head) / width <
        (base + (nel - 1) * width - s.head) / width := by
  obtain ⟨k, ks, hforest, hshape, hgrowing⟩ := h
  have hlt : size (k :: ks) < nel := by
    by_contra hge
    have heq : size (k :: ks) = nel := Nat.le_antisymm hforest.fits (Nat.not_lt.1 hge)
    rw [hforest.head, root, heq] at hmore
    exact lt_irrefl _ hmore
  obtain ⟨t, hrun, hforest', hel⟩ := growRound_eq cmp hlp hw hnel hfuel hforest hshape hlt
  refine ⟨t, hrun, ⟨_, _, hforest', hshape.joined, fun ho => ?_⟩, ?_⟩
  · rw [hel]
    exact (hgrowing ho).joined ho hshape
  · rw [hforest.right hw, hforest'.right hw, size_joined]
    omega

theorem Shrinks.round (hlp : Table width nel lp) (hw : 0 < width) (hfuel : nel ≤ fuel)
    (h : Shrinks base width nel cmp mem s) (hmore : s.pshift ≠ 1 ∨ s.p ≠ ⟨1, 0⟩) :
    ∃ t, shrinkRound width cmp lp fuel s = some t ∧ Shrinks base width nel cmp mem t ∧
      (t.head - base) / width < (s.head - base) / width := by
  obtain ⟨k, ks, hforest, hzero, hshrinking⟩ := h
  have hsize := size_split cmp (elems base width s.mem) k ks
  by_cases hk : k ≤ 1
  · have hks : ks ≠ [] := by
      rintro rfl
      rw [hforest.pshift, Ne, Ne, hforest.enc.eq_one_iff] at hmore
      have hk0 : k = 0 := by simp at hmore; omega
      exact hzero hk0 rfl
    obtain ⟨k', ks, rfl⟩ := List.exists_cons_of_ne_nil hks
    have hlt := hforest.enc.lt List.mem_cons_self
    obtain ⟨t, hrun, hmem, hforest'⟩ := shrinkRound_single cmp lp fuel hforest hk
    have hsplit : split cmp (elems base width s.mem) k (k' :: ks) =
        (elems base width s.mem, k' :: ks) := by
      match k with
      | 0 => rfl
      | 1 => rfl
    simp only [hsplit] at hsize
    refine ⟨t, hrun, ⟨k', ks, hforest', fun h0 => by omega, fun ho => ?_⟩, ?_⟩
    · have := (hshrinking ho).split ho
      rwa [hsplit, ← hmem] at this
    · have hpos := size_pos (List.cons_ne_nil k' ks)
      rw [hforest.left hw, hforest'.left hw, ← hsize]
      omega
  · obtain ⟨k, rfl⟩ : ∃ j, k = j + 2 := ⟨k - 2, by omega⟩
    obtain ⟨t, hrun, hel, hforest'⟩ := shrinkRound_split cmp hlp hfuel hforest
    refine ⟨t, hrun, ⟨k, _, hforest', by simp, fun ho => ?_⟩, ?_⟩
    · rw [hel]
      exact (hshrinking ho).split ho
    · have hpos := size_pos (List.cons_ne_nil k ((k + 1) :: ks))
      rw [hforest.left hw, hforest'.left hw, ← hsize]
      simp only [split]
      omega

theorem start_forest (hmap : Mapped base width nel mem) (hnel : 0 < nel) :
    Forest base width nel mem ⟨mem, base, ⟨1, 0⟩, 1⟩ 1 [] where
  enc :=
    { p1 := rfl
      bits := fun i => by
        simp only [getLsbD_one', List.mem_singleton]
        exact decide_eq_decide.2 (by omega)
      sorted := by simp
      small := by simp }
  pshift := rfl
  head := by simp [root, leo]
  fits := by
    simp only [size_cons, size_nil, leo]
    omega
  mapped := hmap
  outside := fun _ _ => rfl
  perm := .refl _

theorem shrinking_pairwise {f : Nat → List UInt8} (h : Shrinking cmp f nel [1]) :
    ((List.range nel).map f).Pairwise fun a b => cmp a b ≤ 0 := by
  rw [List.pairwise_map]
  refine List.pairwise_lt_range.imp_of_mem fun {i j} _ hj hij => ?_
  exact h.2.2 i j hij.le (by simp [leo]; omega) (List.mem_range.1 hj)

theorem Grows.finish (hlp : Table width nel lp) (hw : 0 < width) (hfuel : nel ≤ fuel)
    (h : Grows base width nel cmp mem s) (hend : ¬ s.head < base + (nel - 1) * width) :
    ∃ mem', trinkle width cmp lp fuel s.mem s.head s.p s.pshift false = some mem' ∧
      Shrinks base width nel cmp mem { s with mem := mem' } ∧
      (s.head - base) / width + 1 = nel := by
  obtain ⟨k, ks, hforest, hshape, hgrowing⟩ := h
  have hpos := size_pos (List.cons_ne_nil k ks)
  have hlen := length_le_size (k :: ks)
  have hfits := hforest.fits
  have hall : size (k :: ks) = nel := by
    by_contra hne
    refine hend ?_
    rw [hforest.head, root]
    exact Nat.add_lt_add_left (Nat.mul_lt_mul_of_pos_right (by omega) hw) base
  obtain ⟨mem', hrun, hel, hmap, hout⟩ := trinkle_eq cmp hforest.mapped hlp fuel false
    hforest.enc hfits (by simp only [List.length_cons] at hlen; omega)
  refine ⟨mem', ?_, ⟨k, ks, ⟨hforest.enc, hforest.pshift, hforest.head, hfits, hmap,
    hforest.outside.trans hout, ?_⟩, fun h0 => ?_, fun ho => ?_⟩, ?_⟩
  · rw [hforest.head, hforest.pshift]
    exact hrun
  · rw [contents, hel]
    exact (settle_self_perm _ false k ks hfits).trans hforest.perm
  · rintro rfl
    simpa using hshape.2.1 h0
  · obtain ⟨hh, hr⟩ := (hgrowing ho).finish ho hshape hall
      (x := elems base width s.mem (size (k :: ks) - 1))
    rw [← hel] at hh hr
    exact ⟨hh, hr, fun i j _ hj hjn => by omega⟩
  · rw [hforest.left hw]
    omega

/-- **`qsort` sorts.** Whatever the comparison does, `qsort` returns, with the elements of the array
rearranged and no other byte changed; it accesses no byte outside the array. If the comparison is
one of a total preorder, the elements are in order. -/
theorem qsort_sorts (cmp : List UInt8 → List UInt8 → Int) (hmap : Mapped base width nel mem)
    (hsize : nel * width ≤ 2 ^ 62) (hnel : nel < leo 64) (hfuel : nel ≤ fuel) :
    ∃ mem', qsort fuel base nel width cmp mem = some mem' ∧
      (contents base width nel mem').Perm (contents base width nel mem) ∧
      (∀ a, a < base ∨ base + nel * width ≤ a → mem' a = mem a) ∧
      (Ordered cmp → (contents base width nel mem').Pairwise fun a b => cmp a b ≤ 0) := by
  have hmod : width * nel % 2 ^ 64 = nel * width := by
    rw [Nat.mul_comm]
    exact Nat.mod_eq_of_lt (by omega)
  by_cases hzero : nel * width = 0
  · refine ⟨mem, by rw [qsort, hmod, hzero]; rfl, .refl _, fun _ _ => rfl, fun ho => ?_⟩
    -- There is no element, or there are only empty ones.
    refine List.pairwise_map.2 (List.pairwise_lt_range.imp_of_mem fun {i j} _ hj _ => ?_)
    have hw : width = 0 := by
      rcases Nat.mul_eq_zero.1 hzero with h0 | h0
      · simp [h0] at hj
      · exact h0
    simp only [elems, hw, List.range_zero, List.map_nil]
    exact ho.refl []
  · have hnel0 : 0 < nel := Nat.pos_of_ne_zero fun h => hzero (by simp [h])
    have hw : 0 < width := Nat.pos_of_ne_zero fun h => hzero (by simp [h])
    obtain ⟨lp, hlp, htable⟩ := lpLoop_eq hw hsize hnel0 hnel (n := lpSize - 2) (m := 0) rfl
      fun j hj hj' => by omega
    have hstart := start_forest hmap hnel0
    obtain ⟨s, hgrow, hgrows, hend⟩ := loopM_rule
      (P := Grows base width nel cmp mem) (fun s => decide (s.head < base + (nel - 1) * width))
      (growRound width cmp lp fuel (base + (nel - 1) * width))
      (fun s => (base + (nel - 1) * width - s.head) / width)
      (fun s hs hc => hs.round htable hw hnel hfuel (by simpa using hc)) (n := fuel)
      ⟨1, [], hstart, by simp [Shape], fun _ => ⟨trivial, trivial, trivial⟩⟩
      (by rw [hstart.right hw]; omega)
    obtain ⟨mem₁, htrinkle, hshrinks, hhead⟩ := hgrows.finish htable hw hfuel (by simpa using hend)
    obtain ⟨t, hshrink, ⟨k, ks, hforest, -, hsorted⟩, hend'⟩ := loopM_rule
      (P := Shrinks base width nel cmp mem) (fun s => decide (s.pshift ≠ 1 ∨ s.p ≠ ⟨1, 0⟩))
      (shrinkRound width cmp lp fuel) (fun s => (s.head - base) / width)
      (fun s hs hc => hs.round htable hw hfuel (by simpa using hc)) (n := fuel) hshrinks
      (by simp only; omega)
    have hlast : t.pshift = 1 ∧ t.p = ⟨1, 0⟩ := by simpa using hend'
    obtain rfl : k = 1 := hforest.pshift.symm.trans hlast.1
    obtain rfl : ks = [] := hforest.enc.eq_one_iff.1 hlast.2
    refine ⟨t.mem, ?_, hforest.perm, hforest.outside, fun ho => shrinking_pairwise (hsorted ho)⟩
    have htwo : (List.range 2).map (leo · * width) = [width, width] := by
      simp [List.range_succ, leo]
    rw [qsort, hmod, if_neg hzero, ptr_pred hnel0, ← htwo]
    simp only [hlp, hgrow, htrinkle, hshrink, Option.bind_eq_bind, Option.bind_some]
    rfl

def byFirst (a b : List UInt8) : Int := (a.headD 0).toNat - (b.headD 0).toNat

def threePairs (a : Nat) : Option UInt8 := if a < 100 then none else [5, 1, 9, 2, 3, 3][a - 100]?

theorem qsort_sorts_three :
    ∃ mem', qsort 3 100 3 2 byFirst threePairs = some mem' ∧
      (contents 100 2 3 mem').Perm [[5, 1], [9, 2], [3, 3]] ∧
      (contents 100 2 3 mem').Pairwise fun a b => byFirst a b ≤ 0 := by
  have hmap : Mapped 100 2 3 threePairs := by
    unfold Mapped
    decide
  have hlt : 3 < leo 64 := leo_lt (j := 2) (by omega) (by omega)
  have ho : Ordered byFirst :=
    ⟨fun a b => by simp only [byFirst]; omega, fun a b c h h' => by simp only [byFirst] at *; omega⟩
  obtain ⟨mem', hrun, hperm, -, hsorted⟩ := qsort_sorts byFirst hmap (by omega) hlt le_rfl
  exact ⟨mem', hrun, hperm, hsorted ho⟩

end SpringOs.Qsort
