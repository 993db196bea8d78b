import SpringOs.Lib.Leonardo

/-!
Forests of Leonardo heaps in an array, and what a sort does with them: it lets a forest grow
over the array, and then takes it apart root by root.

A forest is the list of the orders of its trees, from the right to the left; it fills the array
from place 0 on. Nothing is assumed of the comparison unless `Ordered` is named.

* **`settle_false`**, `settle_true`: a value moved along the roots, and then down, leaves the heaps
  and the order of the roots;
* `Roots.max`: then the rightmost root is a largest element;
* **`Growing.joined`**, **`Shrinking.split`**: what each round of the two loops keeps.
-/

namespace SpringOs.Lib.Leonardo
open Function (update update_self update_of_ne update_eq_self)

variable {E : Type} {cmp : E → E → Int} {f g : Nat → E} {x : E} {k r : Nat}

/-! ## Forests -/

/-- The places a forest fills, from 0 on. Its rightmost root is the last of them. -/
def size (ks : List Nat) : Nat := (ks.map leo).sum

@[simp] theorem size_nil : size [] = 0 := rfl
@[simp] theorem size_cons (k : Nat) (ks : List Nat) : size (k :: ks) = leo k + size ks := by
  simp [size]

section
variable (cmp) (f : Nat → E)

def Heaps : List Nat → Prop
  | [] => True
  | k :: ks => Heap cmp f k (size (k :: ks) - 1) ∧ Heaps ks

def Roots : List Nat → Prop
  | [] => True
  | k :: ks => (ks ≠ [] → cmp (f (size ks - 1)) (f (size (k :: ks) - 1)) ≤ 0) ∧ Roots ks

/-- `x`, at the root of the first tree, does not go on to the next root. `t` says that `x` is known
to be at least the roots below it. -/
def Stops (x : E) (t : Bool) (k : Nat) (ks : List Nat) : Prop :=
  ks = [] ∨ cmp (f (size ks - 1)) x ≤ 0 ∨ (t = false ∧ 2 ≤ k ∧
    (0 ≤ cmp (f (size (k :: ks) - 1 - 1)) (f (size ks - 1)) ∨
      0 ≤ cmp (f (size (k :: ks) - 1 - 1 - leo (k - 2))) (f (size ks - 1))))

instance (x : E) (t : Bool) (k : Nat) (ks : List Nat) : Decidable (Stops cmp f x t k ks) :=
  inferInstanceAs (Decidable (_ ∨ _))

/-- The roots a value goes to, the trees from there on, and whether it has stayed. -/
def climb (x : E) : Bool → List Nat → List Nat × List Nat × Bool
  | t, [] => ([], [], t)
  | t, k :: ks =>
    if Stops cmp f x t k ks then ([], k :: ks, t)
    else ((size ks - 1) :: (climb x false ks).1, (climb x false ks).2)

/-- The value goes along the roots, and then down. -/
def settle (x : E) (t : Bool) (ks : List Nat) : Nat → E :=
  match climb cmp f x t ks with
  | (_, _, true) => f
  | (_, [], false) => f
  | (path, k :: ks', false) => sift cmp (shift f x (size ks - 1) path) x k (size (k :: ks') - 1)

end

variable {t : Bool} {ks : List Nat}

theorem Heaps.congr (h : Heaps cmp f ks) (hfg : ∀ i < size ks, f i = g i) : Heaps cmp g ks := by
  induction ks with
  | nil => trivial
  | cons k ks ih =>
    have hpos := leo_pos k
    simp only [size_cons] at hfg
    refine ⟨h.1.congr (by simp; omega) fun i _ hi => hfg i ?_, ih h.2 fun i hi => hfg i (by omega)⟩
    simp only [size_cons] at hi
    omega

theorem size_pos (hks : ks ≠ []) : 0 < size ks := by
  cases ks with
  | nil => exact absurd rfl hks
  | cons k ks =>
    have hpos := leo_pos k
    rw [size_cons]
    omega

theorem Roots.congr (h : Roots cmp f ks) (hfg : ∀ i < size ks, f i = g i) : Roots cmp g ks := by
  induction ks with
  | nil => trivial
  | cons k ks ih =>
    have hpos := leo_pos k
    simp only [size_cons] at hfg
    refine ⟨fun hks => ?_, ih h.2 fun i hi => hfg i (by omega)⟩
    have hks' := size_pos hks
    rw [← hfg _ (by omega), ← hfg _ (by simp; omega)]
    exact h.1 hks

/-- In a forest in order, the rightmost root is a largest element. -/
theorem Roots.max (ho : Ordered cmp) (hr : Roots cmp f ks) (hh : Heaps cmp f ks) {i : Nat}
    (hi : i < size ks) : cmp (f i) (f (size ks - 1)) ≤ 0 := by
  induction ks with
  | nil => simp at hi
  | cons k ks ih =>
    rw [size_cons] at hi
    by_cases hin : i < size ks
    · have hks : ks ≠ [] := by
        rintro rfl
        simp at hin
      exact ho.trans _ _ _ (ih hr.2 hh.2 hin) (hr.1 hks)
    · exact hh.1.max ho (by simp; omega) (by simp; omega) (by simp; omega)

theorem stops_congr (hfg : ∀ i < size (k :: ks) - 1, f i = g i) :
    Stops cmp f x t k ks ↔ Stops cmp g x t k ks := by
  by_cases hks : ks = []
  · simp [Stops, hks]
  · have hpos := size_pos hks
    have hleo := leo_pos k
    simp only [size_cons] at hfg
    have hs := hfg (size ks - 1) (by omega)
    by_cases hk : 2 ≤ k
    · simp only [Stops, size_cons, hs, hfg (leo k + size ks - 1 - 1) (by omega),
        hfg (leo k + size ks - 1 - 1 - leo (k - 2)) (by omega)]
    · simp only [Stops, hs, hk, false_and, and_false]

theorem climb_congr (hfg : ∀ i < size ks - 1, f i = g i) :
    climb cmp f x t ks = climb cmp g x t ks := by
  induction ks generalizing t with
  | nil => rfl
  | cons k ks ih =>
    have hleo := leo_pos k
    rw [climb, climb, ih fun i hi => hfg i (by simp; omega)]
    simp only [stops_congr hfg]

variable (cmp f x) in
theorem climb_false (hks : ks ≠ []) :
    ∃ path k ks', climb cmp f x false ks = (path, k :: ks', false) := by
  induction ks with
  | nil => exact absurd rfl hks
  | cons k ks ih =>
    by_cases hs : Stops cmp f x false k ks
    · exact ⟨[], k, ks, by rw [climb, if_pos hs]⟩
    · obtain ⟨path, k', ks', hclimb⟩ := ih fun h => hs (.inl h)
      exact ⟨_, k', ks', by rw [climb, if_neg hs, hclimb]⟩

theorem climb_spec {path ks' : List Nat} {t' : Bool} (h : climb cmp f x t ks = (path, ks', t')) :
    (∀ i ∈ path, i < size ks) ∧ path.length ≤ ks.length ∧
      ∀ g, shift g x (size ks - 1) path (size ks' - 1) = x := by
  induction ks generalizing t path with
  | nil =>
    cases h
    exact ⟨by simp, le_rfl, fun g => update_self ..⟩
  | cons k ks ih =>
    have hleo := leo_pos k
    rw [climb] at h
    split at h
    · cases h
      exact ⟨by simp, by simp, fun g => update_self ..⟩
    · rcases hc : climb cmp f x false ks with ⟨path₁, ks₁, t₁⟩
      rw [hc] at h
      cases h
      obtain ⟨hin, hlen, hlast⟩ := ih hc
      refine ⟨fun i hi => ?_, by simpa using hlen, fun g => hlast _⟩
      rw [size_cons]
      rcases List.mem_cons.1 hi with rfl | hi
      · omega
      · have := hin i hi
        omega

/-! ### One tree after the other -/

theorem settle_stop (h : Stops cmp f x false k ks) :
    settle cmp f x false (k :: ks) = sift cmp f x k (size (k :: ks) - 1) := by
  simp only [settle, climb, if_pos h, shift]
  exact sift_update (by simp; omega) x

theorem settle_stay (h : Stops cmp f x true k ks) : settle cmp f x true (k :: ks) = f := by
  simp only [settle, climb, if_pos h]

theorem settle_go (h : ¬ Stops cmp f x t k ks) :
    settle cmp f x t (k :: ks) =
      settle cmp (update f (size (k :: ks) - 1) (f (size ks - 1))) x false ks := by
  have hleo := leo_pos k
  have hcongr : climb cmp (update f (size (k :: ks) - 1) (f (size ks - 1))) x false ks =
      climb cmp f x false ks :=
    climb_congr fun i hi => update_of_ne (by simp; omega) ..
  obtain ⟨path, k', ks', hclimb⟩ := climb_false cmp f x fun hks => h (.inl hks)
  simp only [settle, climb, if_neg h, hcongr, hclimb, shift]

theorem settle_of_size_le {i : Nat} (hi : size ks ≤ i) : settle cmp f x t ks i = f i := by
  induction ks generalizing f t with
  | nil => cases t <;> rfl
  | cons k ks ih =>
    have hleo := leo_pos k
    rw [size_cons] at hi
    by_cases hs : Stops cmp f x t k ks
    · cases t with
      | true => rw [settle_stay hs]
      | false => rw [settle_stop hs, sift_of_notMem (by simp; omega) (.inl (by simp; omega))]
    · rw [settle_go hs, ih (by omega), update_of_ne (by simp; omega)]

variable (cmp) in
theorem settle_perm (f : Nat → E) (t : Bool) (hks : ks ≠ []) {n : Nat} (hn : size ks ≤ n)
    (hx : t = true → x = f (size ks - 1)) :
    ((List.range n).map (settle cmp f x t ks)).Perm
      ((List.range n).map (update f (size ks - 1) x)) := by
  induction ks generalizing f t with
  | nil => exact absurd rfl hks
  | cons k ks ih =>
    have hleo := leo_pos k
    simp only [size_cons] at hn hx ⊢
    by_cases hs : Stops cmp f x t k ks
    · cases t with
      | true => rw [settle_stay hs, hx rfl, update_eq_self]
      | false =>
        rw [settle_stop hs, size_cons]
        exact sift_perm cmp f x (by omega) (by omega)
    · have hks' : ks ≠ [] := fun h => hs (.inl h)
      have hpos := size_pos hks'
      rw [settle_go hs, size_cons]
      exact (ih _ false hks' (by omega) nofun).trans
        (map_range_move f x (by omega) (by omega))

theorem settle_self_perm (f : Nat → E) (t : Bool) (k : Nat) (ks : List Nat) {n : Nat}
    (hn : size (k :: ks) ≤ n) :
    ((List.range n).map (settle cmp f (f (size (k :: ks) - 1)) t (k :: ks))).Perm
      ((List.range n).map f) := by
  have hperm := settle_perm cmp f t (List.cons_ne_nil k ks) hn fun _ => rfl
  rwa [update_eq_self] at hperm

/-- What a value that has settled leaves: heaps, the roots in order, and as the rightmost root no
more than a bound of the value, of the roots below and of the next root. -/
def Settled (cmp : E → E → Int) (f g : Nat → E) (x : E) (k : Nat) (ks : List Nat) : Prop :=
  Heaps cmp g (k :: ks) ∧ Roots cmp g (k :: ks) ∧
    ∀ b, cmp x b ≤ 0 → Below cmp f b k (size (k :: ks) - 1) →
      (ks ≠ [] → cmp (f (size ks - 1)) b ≤ 0) → cmp (g (size (k :: ks) - 1)) b ≤ 0

/-- The next root comes to the root of the first tree, and the value goes on from there. -/
theorem settled_go {k' R S : Nat} (hR : R = size (k :: k' :: ks) - 1)
    (hS : S = size (k' :: ks) - 1) (hbelow : Below cmp f (f S) k R) (hsub : Subheaps cmp f k R)
    (hx : cmp x (f S) ≤ 0) (hh : Heaps cmp f (k' :: ks)) (hr : Roots cmp f (k' :: ks))
    (ih : ∀ f, Subheaps cmp f k' S → Heaps cmp f ks → Roots cmp f ks →
      Settled cmp f (settle cmp f x false (k' :: ks)) x k' ks) :
    Settled cmp f (settle cmp (update f R (f S)) x false (k' :: ks)) x k (k' :: ks) := by
  have hleo := leo_pos k
  have hleo' := leo_pos k'
  simp only [size_cons] at hR hS
  have hsame : ∀ i < size (k' :: ks), f i = update f R (f S) i := fun i hi =>
    (update_of_ne (by simp at hi; omega) ..).symm
  have hfS := hsame S (by simp; omega)
  have hh₁ := hh.congr hsame
  have hr₁ := hr.congr hsame
  obtain ⟨hbelow', hsub'⟩ := heap_iff.1 hh₁.1
  rw [size_cons, ← hS, ← hfS] at hbelow'
  rw [size_cons, ← hS] at hsub'
  obtain ⟨hheaps, hroots, hbound⟩ := ih _ hsub' hh₁.2 hr₁.2
  have hheap : Heap cmp (update f R (f S)) k R := by
    refine heap_iff.2 ⟨?_, hsub.update (by omega) _⟩
    rw [update_self]
    exact hbelow.congr (by omega) fun i _ hi => (update_of_ne hi.ne ..).symm
  have hrest : ∀ i, size (k' :: ks) ≤ i →
      settle cmp (update f R (f S)) x false (k' :: ks) i = update f R (f S) i :=
    fun i hi => settle_of_size_le hi
  have hroot : settle cmp (update f R (f S)) x false (k' :: ks) R = f S := by
    rw [hrest R (by simp; omega), update_self]
  refine ⟨⟨?_, hheaps⟩, ⟨fun _ => ?_, hroots⟩, fun b _ _ hb => ?_⟩
  · rw [size_cons, size_cons, ← hR]
    exact hheap.congr (by omega) fun i hi _ => (hrest i (by simp; omega)).symm
  · have hle := hbound (f S) hx
    rw [size_cons, ← hS] at hle
    rw [size_cons k, size_cons, ← hR, hroot, ← hS]
    refine hle hbelow' fun hks => ?_
    have hnext := hr₁.1 hks
    rwa [size_cons, ← hS, ← hfS] at hnext
  · rw [size_cons k, size_cons, ← hR, hroot, hS, ← size_cons]
    exact hb nofun

theorem settled_stop (ho : Ordered cmp) (hsub : Subheaps cmp f k (size (k :: ks) - 1))
    (hh : Heaps cmp f ks) (hr : Roots cmp f ks) (hs : Stops cmp f x false k ks) :
    Settled cmp f (settle cmp f x false (k :: ks)) x k ks := by
  have hleo := leo_pos k
  rw [settle_stop hs]
  have hfit : leo k ≤ size (k :: ks) - 1 + 1 := by simp; omega
  obtain ⟨hheap, hxroot, hbelow, hbound⟩ := sift_heap (x := x) ho hfit hsub
  have hsame : ∀ i < size ks, f i = sift cmp f x k (size (k :: ks) - 1) i := fun i hi =>
    (sift_of_notMem hfit (.inr (by simp; omega))).symm
  refine ⟨⟨hheap, hh.congr hsame⟩, ⟨fun hks => ?_, hr.congr hsame⟩, fun b hx hb _ => hbound b hx hb⟩
  have hpos := size_pos hks
  rw [← hsame _ (by omega)]
  rcases hs with hnil | hle | ⟨-, hk, hle⟩
  · exact absurd hnil hks
  · exact ho.trans _ _ _ hle hxroot
  · obtain ⟨j, rfl⟩ : ∃ j, k = j + 2 := ⟨k - 2, by omega⟩
    rcases hle with hle | hle
    · exact ho.trans _ _ _ ((ho.flip _ _).1 hle) hbelow.2
    · exact ho.trans _ _ _ ((ho.flip _ _).1 hle) hbelow.1

/-- **A value that settles** leaves the heaps and the order of the roots. -/
theorem settle_false (ho : Ordered cmp) (hsub : Subheaps cmp f k (size (k :: ks) - 1))
    (hh : Heaps cmp f ks) (hr : Roots cmp f ks) :
    Settled cmp f (settle cmp f x false (k :: ks)) x k ks := by
  induction ks generalizing f k with
  | nil => exact settled_stop ho hsub hh hr (.inl rfl)
  | cons k' ks ih =>
    by_cases hs : Stops cmp f x false k (k' :: ks)
    · exact settled_stop ho hsub hh hr hs
    · rw [settle_go hs]
      simp only [Stops, not_or, not_and] at hs
      obtain ⟨-, hx, hbelow⟩ := hs
      refine settled_go rfl rfl ?_ hsub (ho.le_of_not hx) hh hr fun f => ih
      match k with
      | 0 => trivial
      | 1 => trivial
      | k + 2 =>
        obtain ⟨hright, hleft⟩ := hbelow trivial (by omega)
        exact ⟨(Int.not_le.1 hleft).le, (Int.not_le.1 hright).le⟩

/-- The same for a value that is known to be at least the roots below it. -/
theorem settle_true (ho : Ordered cmp) (hh : Heaps cmp f (k :: ks)) (hr : Roots cmp f ks) :
    Heaps cmp (settle cmp f (f (size (k :: ks) - 1)) true (k :: ks)) (k :: ks) ∧
      Roots cmp (settle cmp f (f (size (k :: ks) - 1)) true (k :: ks)) (k :: ks) := by
  by_cases hs : Stops cmp f (f (size (k :: ks) - 1)) true k ks
  · rw [settle_stay hs]
    refine ⟨hh, fun hks => ?_, hr⟩
    simpa [Stops, hks] using hs
  · rw [settle_go hs]
    cases ks with
    | nil => exact absurd (.inl rfl) hs
    | cons k' ks =>
      simp only [Stops, not_or, not_and] at hs
      have hx := ho.le_of_not hs.2.1
      obtain ⟨hbelow, hsub⟩ := heap_iff.1 hh.1
      obtain ⟨hheaps, hroots, -⟩ := settled_go rfl rfl (hbelow.trans ho hx) hsub hx hh.2 hr
        fun f => settle_false ho
      exact ⟨hheaps, hroots⟩

/-! ## Growing a forest -/

/-- The orders of a forest that is being built. Two trees may be of neighbouring orders only at its
right end, and a tree of order 0 follows one of order 1. -/
def Shape (k : Nat) (ks : List Nat) : Prop :=
  (∀ k' ∈ ks.head?, k < k') ∧ (k = 0 → ks.head? = some 1) ∧ ks.IsChain fun a b => a + 2 ≤ b

/-- With `n` elements in all, the first tree is part of no larger one: there are not enough
elements to its right. -/
def Final (n k : Nat) (ks : List Nat) : Prop := n ≤ size (k :: ks) + leo (k - 1)

instance (n k : Nat) (ks : List Nat) : Decidable (Final n k ks) :=
  inferInstanceAs (Decidable (_ ≤ _))

section
variable (cmp) (n : Nat) (f : Nat → E)

/-- From a tree that is final on, the roots are in order. -/
def Ready : List Nat → Prop
  | [] => True
  | k :: ks => (Final n k ks → Roots cmp f (k :: ks)) ∧ Ready ks

/-- Heaps but for the last root, with the roots in order where they have to be. -/
def Growing (k : Nat) (ks : List Nat) : Prop :=
  Subheaps cmp f k (size (k :: ks) - 1) ∧ Heaps cmp f ks ∧ Ready cmp n f ks

/-- What is done with the last tree before an element joins the forest: it becomes a heap, and
unless it is about to be part of a larger one, the order of the roots is restored. -/
def tidy (k : Nat) (ks : List Nat) : Nat → E :=
  let r := size (k :: ks) - 1
  if ks.head? ≠ some (k + 1) ∧ Final n k ks then settle cmp f (f r) false (k :: ks)
  else sift cmp f (f r) k r

end

/-- The orders when one element has joined: the last two trees become one, or a tree comes. -/
def joined (k : Nat) (ks : List Nat) : Nat × List Nat :=
  if ks.head? = some (k + 1) then (k + 2, ks.tail) else (if k = 1 then 0 else 1, k :: ks)

variable {n : Nat}

theorem joined_merge (k : Nat) (ks : List Nat) : joined k ((k + 1) :: ks) = (k + 2, ks) := by
  simp [joined]

theorem joined_new (h : ks.head? ≠ some (k + 1)) :
    joined k ks = (if k = 1 then 0 else 1, k :: ks) := if_neg h

theorem eq_cons_of_head? {α : Type} {l : List α} {a : α} (h : l.head? = some a) :
    ∃ l', l = a :: l' := by
  cases l with
  | nil => simp at h
  | cons b l => exact ⟨l, by simpa using h⟩

theorem size_joined (k : Nat) (ks : List Nat) :
    size ((joined k ks).1 :: (joined k ks).2) = size (k :: ks) + 1 := by
  by_cases h : ks.head? = some (k + 1)
  · obtain ⟨ks, rfl⟩ := eq_cons_of_head? h
    obtain ⟨hleo, -⟩ := leo_add_two k
    simp only [joined_merge, size_cons, hleo]
    omega
  · have hone : leo (if k = 1 then 0 else 1) = 1 := by split <;> rfl
    simp only [joined_new h, size_cons, hone]
    omega

theorem Shape.gaps (h : Shape k ks) (hne : ks.head? ≠ some (k + 1)) :
    0 < k ∧ (k :: ks).IsChain fun a b => a + 2 ≤ b := by
  obtain ⟨hlt, hzero, hgaps⟩ := h
  refine ⟨Nat.pos_of_ne_zero fun h0 => hne (by rw [hzero h0, h0]), ?_⟩
  cases ks with
  | nil => exact .singleton _
  | cons k' ks =>
    have hkk' := hlt k' rfl
    have hne' : k' ≠ k + 1 := fun h => hne (congrArg some h)
    exact List.isChain_cons_cons.2 ⟨by omega, hgaps⟩

theorem Shape.joined (h : Shape k ks) : Shape (joined k ks).1 (joined k ks).2 := by
  by_cases hne : ks.head? = some (k + 1)
  · obtain ⟨ks, rfl⟩ := eq_cons_of_head? hne
    rw [joined_merge]
    have hgaps := h.2.2
    refine ⟨fun k' hk' => ?_, nofun, hgaps.of_cons⟩
    obtain ⟨ks, rfl⟩ := eq_cons_of_head? hk'
    have := (List.isChain_cons_cons.1 hgaps).1
    omega
  · obtain ⟨hpos, hgaps⟩ := h.gaps hne
    rw [joined_new hne]
    refine ⟨fun k' hk' => ?_, fun h0 => ?_, hgaps⟩
    · obtain rfl : k = k' := by simpa using hk'
      split <;> omega
    · split at h0
      · next h1 => simp [h1]
      · simp at h0

theorem Ready.congr (h : Ready cmp n f ks) (hfg : ∀ i < size ks, f i = g i) : Ready cmp n g ks := by
  induction ks with
  | nil => trivial
  | cons k ks ih =>
    exact ⟨fun hfin => (h.1 hfin).congr hfg, ih h.2 fun i hi => hfg i (by simp; omega)⟩

theorem Roots.ready (h : Roots cmp f ks) : Ready cmp n f ks := by
  induction ks with
  | nil => trivial
  | cons k ks ih => exact ⟨fun _ => h, ih h.2⟩

/-- While trees follow with a gap, a final one follows a final one. -/
theorem Final.next {k' : Nat} (h : Final n k (k' :: ks)) (hk : 0 < k) (hgap : k + 2 ≤ k') :
    Final n k' ks := by
  obtain ⟨j, rfl⟩ : ∃ j, k = j + 1 := ⟨k - 1, by omega⟩
  obtain ⟨hleo, -⟩ := leo_add_two j
  have hmono : leo (j + 2) ≤ leo (k' - 1) := leo_mono (by omega)
  simp only [Final, size_cons, Nat.add_sub_cancel] at h ⊢
  omega

/-- The last tree but one is final when all elements are in the forest. -/
theorem Final.last {k' : Nat} (h : size (k :: k' :: ks) = n) (hlt : k < k') : Final n k' ks := by
  have hmono : leo k ≤ leo (k' - 1) := leo_mono (by omega)
  simp only [Final, size_cons] at h ⊢
  omega

theorem sift_rest (i : Nat) (hi : i < size ks) :
    f i = sift cmp f x k (size (k :: ks) - 1) i := by
  have hleo := leo_pos k
  exact (sift_of_notMem (by simp; omega) (.inr (by simp; omega))).symm

theorem Growing.new {j : Nat} (hj : j ≤ 1) (hh : Heaps cmp f ks) (hr : Ready cmp n f ks) :
    Growing cmp n f j ks := by
  refine ⟨?_, hh, hr⟩
  match j with
  | 0 => trivial
  | 1 => trivial

/-- **A forest grows**: the invariant is kept. -/
theorem Growing.joined (ho : Ordered cmp) (h : Growing cmp n f k ks) (hshape : Shape k ks) :
    Growing cmp n (tidy cmp n f k ks) (joined k ks).1 (joined k ks).2 := by
  obtain ⟨hsub, hheaps, hready⟩ := h
  have hleo := leo_pos k
  obtain ⟨hheap, -⟩ := sift_heap (x := f (size (k :: ks) - 1)) ho (by simp; omega) hsub
  by_cases hne : ks.head? = some (k + 1)
  · obtain ⟨ks, rfl⟩ := eq_cons_of_head? hne
    rw [joined_merge, tidy, if_neg (by simp)]
    obtain ⟨hleo2, -⟩ := leo_add_two k
    have hr : size ((k + 2) :: ks) - 1 - 1 = size (k :: (k + 1) :: ks) - 1 := by
      simp only [size_cons, hleo2]
      omega
    have hl : size ((k + 2) :: ks) - 1 - 1 - leo k = size ((k + 1) :: ks) - 1 := by
      simp only [size_cons, hleo2]
      omega
    have hrest : Heaps cmp (sift cmp f (f (size (k :: (k + 1) :: ks) - 1)) k
        (size (k :: (k + 1) :: ks) - 1)) ((k + 1) :: ks) := hheaps.congr sift_rest
    refine ⟨?_, hrest.2, hready.2.congr fun i hi => sift_rest i (by simp; omega)⟩
    rw [Subheaps, hl, hr]
    exact ⟨hrest.1, hheap⟩
  · have hnew : (if k = 1 then 0 else 1) ≤ 1 := by split <;> omega
    obtain ⟨hpos, hgaps⟩ := hshape.gaps hne
    rw [joined_new hne]
    by_cases hfin : Final n k ks
    · rw [tidy, if_pos ⟨hne, hfin⟩]
      have hroots : Roots cmp f ks := by
        cases ks with
        | nil => trivial
        | cons k' ks => exact hready.1 (hfin.next hpos (List.isChain_cons_cons.1 hgaps).1)
      obtain ⟨hh, hr, -⟩ := settle_false (x := f (size (k :: ks) - 1)) ho hsub hheaps hroots
      exact .new hnew hh hr.ready
    · rw [tidy, if_neg (by simp [hfin])]
      exact .new hnew ⟨hheap, hheaps.congr sift_rest⟩
        ⟨fun h => absurd h hfin, hready.congr sift_rest⟩

/-- The order of the roots is restored at the end. -/
theorem Growing.finish (ho : Ordered cmp) (h : Growing cmp n f k ks) (hshape : Shape k ks)
    (hn : size (k :: ks) = n) :
    Heaps cmp (settle cmp f x false (k :: ks)) (k :: ks) ∧
      Roots cmp (settle cmp f x false (k :: ks)) (k :: ks) := by
  obtain ⟨hsub, hheaps, hready⟩ := h
  have hroots : Roots cmp f ks := by
    cases ks with
    | nil => trivial
    | cons k' ks => exact hready.1 (.last hn (hshape.1 k' rfl))
  obtain ⟨hh, hr, -⟩ := settle_false ho hsub hheaps hroots
  exact ⟨hh, hr⟩

/-! ## Taking a forest apart -/

section
variable (cmp) (f : Nat → E)

/-- The rightmost root leaves the forest, and the trees below it come in its place. -/
def split : Nat → List Nat → (Nat → E) × List Nat
  | 0, ks => (f, ks)
  | 1, ks => (f, ks)
  | k + 2, ks =>
    let f' := settle cmp f (f (size ((k + 1) :: ks) - 1)) true ((k + 1) :: ks)
    (settle cmp f' (f' (size (k :: (k + 1) :: ks) - 1)) true (k :: (k + 1) :: ks),
      k :: (k + 1) :: ks)

/-- A forest in order, with everything right of it in its place. -/
def Shrinking (n : Nat) (ks : List Nat) : Prop :=
  Heaps cmp f ks ∧ Roots cmp f ks ∧
    ∀ i j, i ≤ j → size ks ≤ j → j < n → cmp (f i) (f j) ≤ 0

end

variable (cmp f) in
theorem size_split (k : Nat) (ks : List Nat) :
    size (split cmp f k ks).2 + 1 = size (k :: ks) := by
  match k with
  | 0 => simp [split, leo, Nat.add_comm]
  | 1 => simp [split, leo, Nat.add_comm]
  | k + 2 =>
    obtain ⟨hleo, -⟩ := leo_add_two k
    simp only [split, size_cons, hleo]
    omega

theorem split_of_size_le {i : Nat} (hi : size (split cmp f k ks).2 ≤ i) :
    (split cmp f k ks).1 i = f i := by
  match k with
  | 0 => rfl
  | 1 => rfl
  | k + 2 =>
    simp only [split, size_cons] at hi ⊢
    rw [settle_of_size_le (by simp; omega), settle_of_size_le (by simp; omega)]

theorem split_perm (hn : size (split cmp f k ks).2 ≤ n) :
    ((List.range n).map (split cmp f k ks).1).Perm ((List.range n).map f) := by
  match k with
  | 0 => exact .refl _
  | 1 => exact .refl _
  | k + 2 =>
    simp only [split] at hn ⊢
    exact (settle_self_perm _ true k _ hn).trans
      (settle_self_perm f true (k + 1) ks (by simp at hn ⊢; omega))

/-- A rearrangement of the places below `m` leaves what is in its place. -/
theorem inPlace_perm {m : Nat} (h : ∀ i j, i ≤ j → m ≤ j → j < n → cmp (f i) (f j) ≤ 0)
    (hout : ∀ i, m ≤ i → g i = f i) (hperm : ((List.range m).map g).Perm ((List.range m).map f)) :
    ∀ i j, i ≤ j → m ≤ j → j < n → cmp (g i) (g j) ≤ 0 := by
  intro i j hij hmj hjn
  rw [hout j hmj]
  by_cases hi : m ≤ i
  · rw [hout i hi]
    exact h i j hij hmj hjn
  · have hmem : g i ∈ (List.range m).map f :=
      hperm.mem_iff.1 (List.mem_map_of_mem (List.mem_range.2 (by omega)))
    obtain ⟨i', hi', heq⟩ := List.mem_map.1 hmem
    rw [← heq]
    exact h i' j (by have := List.mem_range.1 hi'; omega) hmj hjn

/-- **A forest is taken apart**: the invariant is kept. -/
theorem Shrinking.split (ho : Ordered cmp) (h : Shrinking cmp f n (k :: ks)) :
    Shrinking cmp (split cmp f k ks).1 n (split cmp f k ks).2 := by
  obtain ⟨hh, hr, hplace⟩ := h
  have hsize := size_split cmp f k ks
  -- The root that leaves is a largest element.
  have hplace' : ∀ i j, i ≤ j → size (Leonardo.split cmp f k ks).2 ≤ j → j < n →
      cmp (f i) (f j) ≤ 0 := by
    intro i j hij hj hjn
    by_cases hjr : j = size (k :: ks) - 1
    · subst hjr
      exact hr.max ho hh (by omega)
    · exact hplace i j hij (by omega) hjn
  have hplaced := inPlace_perm hplace' (fun i => split_of_size_le) (split_perm le_rfl)
  match k with
  | 0 => exact ⟨hh.2, hr.2, hplaced⟩
  | 1 => exact ⟨hh.2, hr.2, hplaced⟩
  | k + 2 =>
    obtain ⟨hleo, hpos, hpos'⟩ := leo_add_two k
    obtain ⟨⟨-, hleft, hright⟩, hrest⟩ := hh
    have hl : size ((k + 2) :: ks) - 1 - 1 - leo k = size ((k + 1) :: ks) - 1 := by
      simp only [size_cons, hleo]
      omega
    have hr' : size ((k + 2) :: ks) - 1 - 1 = size (k :: (k + 1) :: ks) - 1 := by
      simp only [size_cons, hleo]
      omega
    rw [hl] at hleft
    rw [hr'] at hright
    obtain ⟨hh₁, hr₁⟩ := settle_true ho (f := f) (k := k + 1) ⟨hleft, hrest⟩ hr.2
    have hright₁ : Heap cmp (settle cmp f (f (size ((k + 1) :: ks) - 1)) true ((k + 1) :: ks)) k
        (size (k :: (k + 1) :: ks) - 1) :=
      hright.congr (by simp; omega) fun i hi _ => (settle_of_size_le (by simp at hi ⊢; omega)).symm
    obtain ⟨hh₂, hr₂⟩ := settle_true ho (k := k) ⟨hright₁, hh₁⟩ hr₁
    exact ⟨hh₂, hr₂, hplaced⟩

end SpringOs.Lib.Leonardo
