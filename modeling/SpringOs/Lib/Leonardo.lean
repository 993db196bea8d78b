import Mathlib.Algebra.GroupWithZero.Nat
import Mathlib.Algebra.Order.Group.Nat
import Mathlib.Data.Finset.Image
import Mathlib.Data.List.Perm.Basic
import Mathlib.Logic.Equiv.Basic

/-!
Leonardo trees laid out in an array, each with its root at its right end.

The tree of order `k + 2` rooted at `r` has the tree of order `k` right before it, and the tree
of order `k + 1` before that one. Nothing is assumed of the comparison unless `Ordered` is named.

* `shift`: the values on a path move one place towards its start; `shift_perm`: none is lost;
* **`sift_heap`**: a value moved down from the root of a tree leaves a heap;
* `Heap.max`: the root of a heap is a largest element.
-/

namespace SpringOs.Lib.Leonardo
open Function (update update_self update_of_ne comp_update)

/-- The size of the tree of order `k`. -/
def leo : Nat → Nat
  | 0 => 1
  | 1 => 1
  | k + 2 => leo k + leo (k + 1) + 1

theorem leo_pos (k : Nat) : 0 < leo k := by
  fun_cases leo k <;> omega

theorem leo_add_two (k : Nat) :
    leo (k + 2) = leo k + leo (k + 1) + 1 ∧ 0 < leo k ∧ 0 < leo (k + 1) :=
  ⟨rfl, leo_pos k, leo_pos (k + 1)⟩

theorem leo_succ_lt (k : Nat) : leo (k + 1) < leo (k + 2) := by
  have := leo_pos k
  rw [leo]
  omega

theorem leo_le_succ (k : Nat) : leo k ≤ leo (k + 1) := by
  cases k with
  | zero => exact le_rfl
  | succ k => exact (leo_succ_lt k).le

theorem leo_mono : Monotone leo := monotone_nat_of_le_succ leo_le_succ

theorem leo_lt {j k : Nat} (hj : 0 < j) (h : j < k) : leo j < leo k := by
  obtain ⟨i, rfl⟩ : ∃ i, j = i + 1 := ⟨j - 1, by omega⟩
  exact (leo_succ_lt i).trans_le (leo_mono h)

/-! ## Moving values along a path -/

variable {E : Type}

/-- Every place on the path takes the value of the next one, and the last one takes `x`. -/
def shift (f : Nat → E) (x : E) (h : Nat) : List Nat → Nat → E
  | [] => update f h x
  | n :: path => shift (update f h (f n)) x n path

theorem shift_comp {F : Type} (φ : E → F) (f : Nat → E) (x : E) (h : Nat) (path : List Nat) :
    shift (φ ∘ f) (φ x) h path = φ ∘ shift f x h path := by
  induction path generalizing f h with
  | nil => exact (comp_update φ f h x).symm
  | cons n path ih =>
    rw [shift, shift, ← ih, comp_update]
    rfl

variable {h n : Nat} {path : List Nat}

theorem shift_of_notMem {f : Nat → E} {x : E} {i : Nat} (hi : i ∉ h :: path) :
    shift f x h path i = f i := by
  induction path generalizing f h with
  | nil => exact update_of_ne (by simpa using hi) ..
  | cons n path ih =>
    simp only [List.mem_cons, not_or] at hi
    rw [shift, ih (by simp [hi]), update_of_ne hi.1]

theorem shift_update (f : Nat → E) (x y : E) (hh : h ∉ path) :
    shift (update f h y) x h path = shift f x h path := by
  cases path with
  | nil => simp [shift]
  | cons n path =>
    simp only [List.mem_cons, not_or] at hh
    simp [shift, update_of_ne (Ne.symm hh.1)]

/-- A value moves from `m` to `h`, and the one that was to be at `h` takes its place. -/
theorem map_range_move (f : Nat → E) (x : E) {m : Nat} (hm : m < h) (hh : h < n) :
    ((List.range n).map (update (update f h (f m)) m x)).Perm
      ((List.range n).map (update f h x)) := by
  have hlt : ∀ i < n, Equiv.swap h m i < n := fun i hi => by
    rw [Equiv.swap_apply_def]
    split_ifs <;> omega
  have hperm : ((List.range n).map (Equiv.swap h m)).Perm (List.range n) := by
    refine (List.perm_ext_iff_of_nodup (List.nodup_range.map (Equiv.swap h m).injective)
      List.nodup_range).2 fun i => ?_
    simp only [List.mem_map, List.mem_range]
    constructor
    · rintro ⟨j, hj, rfl⟩
      exact hlt j hj
    · exact fun hi => ⟨Equiv.swap h m i, hlt i hi, Equiv.swap_apply_self ..⟩
  have hswap : update (update f h (f m)) m x =
      update f h x ∘ Equiv.swap h m := by
    funext i
    by_cases hi : i = m
    · subst hi
      simp
    · by_cases hi' : i = h
      · subst hi'
        simp [hi, hm.ne]
      · simp [hi, hi', Equiv.swap_apply_of_ne_of_ne hi' hi]
  rw [hswap]
  simpa only [List.map_map] using hperm.map (update f h x)

/-- No value is lost: `x` is at the end of the path, where it was at its start. -/
theorem shift_perm (f : Nat → E) (x : E) (hh : h < n) (hpath : (h :: path).Pairwise (· > ·)) :
    ((List.range n).map (shift f x h path)).Perm ((List.range n).map (update f h x)) := by
  induction path generalizing f h with
  | nil => exact .refl _
  | cons m path ih =>
    rw [List.pairwise_cons] at hpath
    have hm : m < h := hpath.1 m List.mem_cons_self
    exact (ih (update f h (f m)) (hm.trans hh) hpath.2).trans (map_range_move f x hm hh)

/-! ## Trees -/

structure Ordered (cmp : E → E → Int) : Prop where
  flip : ∀ a b, 0 ≤ cmp a b ↔ cmp b a ≤ 0
  trans : ∀ a b c, cmp a b ≤ 0 → cmp b c ≤ 0 → cmp a c ≤ 0

variable {cmp : E → E → Int}

theorem Ordered.le_of_not (ho : Ordered cmp) {a b : E} (h : ¬ cmp a b ≤ 0) : cmp b a ≤ 0 :=
  (ho.flip a b).1 (by omega)

theorem Ordered.refl (ho : Ordered cmp) (a : E) : cmp a a ≤ 0 := by
  by_contra h
  exact h (ho.le_of_not h)

section
variable (cmp) (f : Nat → E)

/-- The roots right below the root of a tree are at most `b`. -/
def Below (b : E) : Nat → Nat → Prop
  | 0, _ => True
  | 1, _ => True
  | k + 2, r => cmp (f (r - 1 - leo k)) b ≤ 0 ∧ cmp (f (r - 1)) b ≤ 0

def Heap : Nat → Nat → Prop
  | 0, _ => True
  | 1, _ => True
  | k + 2, r => Below cmp f (f r) (k + 2) r ∧ Heap (k + 1) (r - 1 - leo k) ∧ Heap k (r - 1)

/-- A tree that is a heap but for its root. -/
def Subheaps : Nat → Nat → Prop
  | 0, _ => True
  | 1, _ => True
  | k + 2, r => Heap cmp f (k + 1) (r - 1 - leo k) ∧ Heap cmp f k (r - 1)

/-- The places a value goes to that is moved down from the root of a tree. -/
def siftPath (x : E) : Nat → Nat → List Nat
  | 0, _ => []
  | 1, _ => []
  | k + 2, r =>
    if 0 ≤ cmp x (f (r - 1 - leo k)) ∧ 0 ≤ cmp x (f (r - 1)) then []
    else if 0 ≤ cmp (f (r - 1 - leo k)) (f (r - 1)) then
      (r - 1 - leo k) :: siftPath x (k + 1) (r - 1 - leo k)
    else (r - 1) :: siftPath x k (r - 1)

def sift (x : E) (k r : Nat) : Nat → E := shift f x r (siftPath cmp f x k r)

end

variable {f g : Nat → E} {x : E} {k r : Nat}

theorem heap_iff : Heap cmp f k r ↔ Below cmp f (f r) k r ∧ Subheaps cmp f k r := by
  fun_cases Heap cmp f k r <;> simp [Below, Subheaps]

theorem Below.trans (ho : Ordered cmp) {b c : E} (h : Below cmp f b k r) (hbc : cmp b c ≤ 0) :
    Below cmp f c k r := by
  match k, h with
  | 0, _ => trivial
  | 1, _ => trivial
  | k + 2, h => exact ⟨ho.trans _ _ _ h.1 hbc, ho.trans _ _ _ h.2 hbc⟩

theorem Below.congr {b : E} (h : Below cmp f b k r) (hfit : leo k ≤ r + 1)
    (hfg : ∀ i, r + 1 ≤ i + leo k → i < r → f i = g i) : Below cmp g b k r := by
  match k, h with
  | 0, _ => trivial
  | 1, _ => trivial
  | k + 2, h =>
    have ⟨hleo, hpos, hpos'⟩ := leo_add_two k
    refine ⟨?_, ?_⟩
    · rw [← hfg _ (by omega) (by omega)]
      exact h.1
    · rw [← hfg _ (by omega) (by omega)]
      exact h.2

theorem Heap.congr (h : Heap cmp f k r) (hfit : leo k ≤ r + 1)
    (hfg : ∀ i, r + 1 ≤ i + leo k → i ≤ r → f i = g i) : Heap cmp g k r := by
  induction k using Nat.twoStepInduction generalizing r with
  | zero | one => trivial
  | more k ih ih' =>
    obtain ⟨hbelow, hl, hr⟩ := h
    have ⟨hleo, hpos, hpos'⟩ := leo_add_two k
    refine ⟨⟨?_, ?_⟩, ih' hl (by omega) fun i hi hi' => hfg i (by omega) (by omega),
      ih hr (by omega) fun i hi hi' => hfg i (by omega) (by omega)⟩
    · rw [← hfg _ (by omega) (by omega), ← hfg r (by omega) le_rfl]
      exact hbelow.1
    · rw [← hfg _ (by omega) (by omega), ← hfg r (by omega) le_rfl]
      exact hbelow.2

theorem siftPath_congr (hfit : leo k ≤ r + 1) (hfg : ∀ i < r, f i = g i) :
    siftPath cmp f x k r = siftPath cmp g x k r := by
  induction k using Nat.twoStepInduction generalizing r with
  | zero | one => rfl
  | more k ih ih' =>
    have ⟨hleo, hpos, hpos'⟩ := leo_add_two k
    rw [siftPath, siftPath, hfg (r - 1 - leo k) (by omega), hfg (r - 1) (by omega),
      ih (by omega) fun i hi => hfg i (by omega), ih' (by omega) fun i hi => hfg i (by omega)]

variable (cmp f x) in
theorem siftPath_descends (hfit : leo k ≤ r + 1) :
    (∀ i ∈ siftPath cmp f x k r, r + 1 ≤ i + leo k ∧ i < r) ∧
      (siftPath cmp f x k r).Pairwise (· > ·) := by
  induction k using Nat.twoStepInduction generalizing r with
  | zero | one => simp [siftPath]
  | more k ih ih' =>
    have ⟨hleo, hpos, hpos'⟩ := leo_add_two k
    rw [siftPath]
    split
    · simp
    · split
      · obtain ⟨hin, hpw⟩ := ih' (r := r - 1 - leo k) (by omega)
        refine ⟨fun i hi => ?_, List.pairwise_cons.2 ⟨fun i hi => (hin i hi).2, hpw⟩⟩
        rcases List.mem_cons.1 hi with rfl | hi
        · omega
        · have := hin i hi
          omega
      · obtain ⟨hin, hpw⟩ := ih (r := r - 1) (by omega)
        refine ⟨fun i hi => ?_, List.pairwise_cons.2 ⟨fun i hi => (hin i hi).2, hpw⟩⟩
        rcases List.mem_cons.1 hi with rfl | hi
        · omega
        · have := hin i hi
          omega

theorem sift_of_notMem (hfit : leo k ≤ r + 1) {i : Nat} (hi : r < i ∨ i + leo k ≤ r) :
    sift cmp f x k r i = f i := by
  refine shift_of_notMem ?_
  have hpos := leo_pos k
  rintro (_ | ⟨_, hmem⟩)
  · omega
  · have := (siftPath_descends cmp f x hfit).1 i hmem
    omega

theorem Heap.update {q : Nat} (h : Heap cmp f k q) (hfit : leo k ≤ q + 1) (hq : q < r) (v : E) :
    Heap cmp (update f r v) k q :=
  h.congr hfit fun _ _ hi => (update_of_ne (by omega) ..).symm

theorem Subheaps.update (h : Subheaps cmp f k r) (hfit : leo k ≤ r + 1) (v : E) :
    Subheaps cmp (update f r v) k r := by
  match k, h with
  | 0, _ => trivial
  | 1, _ => trivial
  | k + 2, h =>
    have ⟨hleo, hpos, hpos'⟩ := leo_add_two k
    exact ⟨h.1.update (by omega) (by omega) v, h.2.update (by omega) (by omega) v⟩

theorem sift_update (hfit : leo k ≤ r + 1) (y : E) :
    sift cmp (update f r y) x k r = sift cmp f x k r := by
  have hpath : siftPath cmp (update f r y) x k r = siftPath cmp f x k r :=
    siftPath_congr hfit fun i hi => update_of_ne hi.ne ..
  rw [sift, hpath, shift_update]
  · rfl
  · intro hmem
    exact absurd ((siftPath_descends cmp f x hfit).1 r hmem).2 (lt_irrefl r)

variable (cmp) in
theorem sift_perm (f : Nat → E) (x : E) (hfit : leo k ≤ r + 1) {n : Nat} (hr : r < n) :
    ((List.range n).map (sift cmp f x k r)).Perm ((List.range n).map (update f r x)) := by
  have hpath := siftPath_descends cmp f x hfit
  exact shift_perm f x hr (List.pairwise_cons.2 ⟨fun i hi => (hpath.1 i hi).2, hpath.2⟩)

section
variable (hfit : leo (k + 2) ≤ r + 1)
  (hgo : ¬ (0 ≤ cmp x (f (r - 1 - leo k)) ∧ 0 ≤ cmp x (f (r - 1))))
include hfit hgo

theorem sift_left (h : 0 ≤ cmp (f (r - 1 - leo k)) (f (r - 1))) :
    sift cmp f x (k + 2) r = sift cmp (update f r (f (r - 1 - leo k))) x (k + 1)
      (r - 1 - leo k) := by
  have ⟨hleo, hpos, hpos'⟩ := leo_add_two k
  rw [sift, siftPath, if_neg hgo, if_pos h, shift, sift]
  exact congrArg _ (siftPath_congr (by omega) fun i hi =>
    (update_of_ne (by omega) ..).symm)

theorem sift_right (h : ¬ 0 ≤ cmp (f (r - 1 - leo k)) (f (r - 1))) :
    sift cmp f x (k + 2) r = sift cmp (update f r (f (r - 1))) x k (r - 1) := by
  have ⟨hleo, hpos, hpos'⟩ := leo_add_two k
  rw [sift, siftPath, if_neg hgo, if_neg h, shift, sift]
  exact congrArg _ (siftPath_congr (by omega) fun i hi =>
    (update_of_ne (by omega) ..).symm)

end

/-- What moving a value down is to leave: a heap, whose root is at least `x` and the roots that
were below it, and no more than any bound of these. -/
def Sifted (cmp : E → E → Int) (f g : Nat → E) (x : E) (k r : Nat) : Prop :=
  Heap cmp g k r ∧ cmp x (g r) ≤ 0 ∧ Below cmp f (g r) k r ∧
    ∀ b, cmp x b ≤ 0 → Below cmp f b k r → cmp (g r) b ≤ 0

/-- The value goes on in the tree at `q`, whose root has moved up to `r`. -/
theorem sift_child {j q : Nat} (hfit : leo j ≤ q + 1) (hq : q < r) (h : Heap cmp f j q)
    (hx : cmp x (f q) ≤ 0)
    (hsift : ∀ f, Subheaps cmp f j q → Sifted cmp f (sift cmp f x j q) x j q) :
    let g := sift cmp (update f r (f q)) x j q
    Heap cmp g j q ∧ cmp (g q) (f q) ≤ 0 ∧ g r = f q ∧
      ∀ i, i ≠ r → (q < i ∨ i + leo j ≤ q) → g i = f i := by
  obtain ⟨hbelow, hsub⟩ := heap_iff.1 (h.update hfit hq (f q))
  obtain ⟨hheap, -, -, hbound⟩ := hsift _ hsub
  refine ⟨hheap, hbound _ hx ?_, ?_, fun i hi hout => ?_⟩
  · rwa [update_of_ne hq.ne] at hbelow
  · rw [sift_of_notMem hfit (.inl hq), update_self]
  · rw [sift_of_notMem hfit hout, update_of_ne hi]

/-- **A value moved down** leaves a heap. -/
theorem sift_heap (ho : Ordered cmp) (hfit : leo k ≤ r + 1) (h : Subheaps cmp f k r) :
    Sifted cmp f (sift cmp f x k r) x k r := by
  induction k using Nat.twoStepInduction generalizing f r with
  | zero | one => simp [Sifted, sift, siftPath, shift, Heap, Below, ho.refl]
  | more k ih ih' =>
    have ⟨hleo, hpos, hpos'⟩ := leo_add_two k
    obtain ⟨hl, hr⟩ := h
    by_cases hgo : 0 ≤ cmp x (f (r - 1 - leo k)) ∧ 0 ≤ cmp x (f (r - 1))
    · -- The value stays at the root.
      have hx : sift cmp f x (k + 2) r = update f r x := by
        rw [sift, siftPath, if_pos hgo, shift]
      have hbelow : Below cmp f x (k + 2) r := ⟨(ho.flip _ _).1 hgo.1, (ho.flip _ _).1 hgo.2⟩
      rw [hx, Sifted, update_self]
      refine ⟨⟨?_, hl.update (by omega) (by omega) x, hr.update (by omega) (by omega) x⟩,
        ho.refl x, hbelow, fun b hb _ => hb⟩
      simpa only [Below, update_self,
        update_of_ne (show r - 1 - leo k ≠ r by omega),
        update_of_ne (show r - 1 ≠ r by omega)] using hbelow
    · by_cases hlr : 0 ≤ cmp (f (r - 1 - leo k)) (f (r - 1))
      · -- The left root comes up.
        have hrl := (ho.flip _ _).1 hlr
        have hx : cmp x (f (r - 1 - leo k)) ≤ 0 := by
          by_contra hn
          have hle := ho.le_of_not hn
          exact hgo ⟨(ho.flip _ _).2 hle, (ho.flip _ _).2 (ho.trans _ _ _ hrl hle)⟩
        obtain ⟨hheap, hroot, hr', hother⟩ := sift_child (r := r) (by omega) (by omega) hl hx
          fun f hf => ih' (by omega) hf
        rw [← sift_left hfit hgo hlr] at hheap hroot hr' hother
        have hright := hother (r - 1) (by omega) (.inl (by omega))
        refine ⟨⟨⟨?_, ?_⟩, hheap, hr.congr (by omega) fun i hi hi' =>
          (hother i (by omega) (.inl (by omega))).symm⟩, ?_, ?_, fun b _ hb => ?_⟩
        · rwa [hr']
        · rwa [hr', hright]
        · rwa [hr']
        · rw [hr']
          exact ⟨ho.refl _, hrl⟩
        · rw [hr']
          exact hb.1
      · -- The right root comes up.
        have hle : cmp (f (r - 1 - leo k)) (f (r - 1)) ≤ 0 := by omega
        have hx : cmp x (f (r - 1)) ≤ 0 := by
          by_contra hn
          have hle' := ho.le_of_not hn
          exact hgo ⟨(ho.flip _ _).2 (ho.trans _ _ _ hle hle'), (ho.flip _ _).2 hle'⟩
        obtain ⟨hheap, hroot, hr', hother⟩ := sift_child (r := r) (by omega) (by omega) hr hx
          fun f hf => ih (by omega) hf
        rw [← sift_right hfit hgo hlr] at hheap hroot hr' hother
        have hleft := hother (r - 1 - leo k) (by omega) (.inr (by omega))
        refine ⟨⟨⟨?_, ?_⟩, hl.congr (by omega) fun i hi hi' =>
          (hother i (by omega) (.inr (by omega))).symm, hheap⟩, ?_, ?_, fun b _ hb => ?_⟩
        · rwa [hr', hleft]
        · rwa [hr']
        · rwa [hr']
        · rw [hr']
          exact ⟨hle, ho.refl _⟩
        · rw [hr']
          exact hb.2

theorem Heap.max (ho : Ordered cmp) (h : Heap cmp f k r) (hfit : leo k ≤ r + 1) {i : Nat}
    (hi : r + 1 ≤ i + leo k) (hir : i ≤ r) : cmp (f i) (f r) ≤ 0 := by
  induction k using Nat.twoStepInduction generalizing r with
  | zero | one =>
    obtain rfl : i = r := by simp only [leo] at hi; omega
    exact ho.refl _
  | more k ih ih' =>
    have ⟨hleo, hpos, hpos'⟩ := leo_add_two k
    obtain ⟨hbelow, hl, hr⟩ := h
    by_cases heq : i = r
    · subst heq
      exact ho.refl _
    · by_cases hleft : i ≤ r - 1 - leo k
      · exact ho.trans _ _ _ (ih' hl (by omega) (by omega) hleft) hbelow.1
      · exact ho.trans _ _ _ (ih hr (by omega) (by omega) (by omega)) hbelow.2

end SpringOs.Lib.Leonardo
