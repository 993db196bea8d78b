import Mathlib.Data.List.Perm.Basic
import SpringOs.Lib.Word

/-!
A reference-counted object, seen next to the holders it is meant to count.

`Exact` is what a count is for: while the object lives the count is the number of
its holders, and it is released once, when the last of them is gone. The events are
those a kernel can cause, the faulty ones included:

* `acquire_exact_iff`, `release_exact`: counted events keep a count exact, up to
  the wrap of the word;
* `forget_not_exact`, `put_not_exact`: a holder that leaves without a decrement,
  and a decrement that belongs to no holder, never do.

The last section counts holders spread over lists.
-/

namespace SpringOs.Lib.RefCount
open Word

/-- The count of an object, how many holders it has, how often it was released, and
whether its last holder has gone. -/
structure Count where
  ref : Int
  holders : Nat
  released : Nat
  dropped : Bool
  deriving DecidableEq

/-- An object nobody holds yet, with what its count word happened to be. -/
def Count.made (ref : Int) : Count := ⟨ref, 0, 0, false⟩

def Exact (c : Count) : Prop :=
  (c.dropped = false ∧ c.released = 0 ∧ c.ref = c.holders) ∨
    (c.dropped = true ∧ c.released = 1 ∧ c.ref = -1 ∧ c.holders = 0)

/-! ## Events -/

/-- The holders become `n`. -/
def Count.hold (c : Count) (n : Nat) : Count :=
  { c with holders := n, dropped := c.dropped || (decide (0 < c.holders) && n == 0) }

/-- A decrement: the word that would become 0 becomes -1, and the object is
released. -/
def Count.put (c : Count) : Count :=
  if c.ref = 1 then { c with ref := -1, released := c.released + 1 }
  else { c with ref := c.ref - 1 }

/-- A holder comes, with an increment. -/
def Count.acquire (c : Count) : Count :=
  { c with ref := i32 (1 + c.ref) }.hold (c.holders + 1)

/-- A holder leaves, with a decrement. -/
def Count.release (c : Count) : Count := c.put.hold (c.holders - 1)

/-- A holder leaves and the count stays. -/
def Count.forget (c : Count) : Count := c.hold (c.holders - 1)

theorem Count.hold_self (c : Count) : c.hold c.holders = c := by
  cases c with
  | mk ref holders released dropped =>
    cases holders with
    | zero => simp [Count.hold]
    | succ n => simp [Count.hold]

variable {c : Count}

theorem Exact.live (h : Exact c) (hpos : 0 ≤ c.ref) :
    c.dropped = false ∧ c.released = 0 ∧ c.ref = c.holders := by
  cases h with
  | inl h => exact h
  | inr h => omega

theorem acquire_exact_iff (h : Exact c) (hpos : 0 ≤ c.ref) :
    Exact c.acquire ↔ c.ref + 1 < 2147483648 := by
  obtain ⟨hd, hr, href⟩ := h.live hpos
  simp only [Exact, Count.acquire, Count.hold, hd, hr, href, i32]
  simp
  omega

theorem acquire_ref (c : Count) : c.acquire.ref = i32 (1 + c.ref) := rfl

/-- An increment that did not turn the word negative counted. -/
theorem acquire_ref_of_nonneg (h0 : 0 ≤ c.ref) (hlt : c.ref < 2147483648) (h1 : 0 ≤ c.acquire.ref) :
    c.acquire.ref = c.ref + 1 ∧ c.ref + 1 < 2147483648 := by
  rw [acquire_ref] at h1 ⊢
  unfold i32 at h1 ⊢
  omega

/-- Three holders at once, as long as no increment before the last one wraps. -/
theorem acquire_thrice_exact_iff (h : Exact c) (h0 : 0 ≤ c.ref) (hlt : c.ref < 2147483648)
    (h1 : 0 ≤ c.acquire.ref) (h2 : 0 ≤ c.acquire.acquire.ref) :
    Exact c.acquire.acquire.acquire ↔ c.ref + 3 < 2147483648 := by
  obtain ⟨e1, hlt1⟩ := acquire_ref_of_nonneg h0 hlt h1
  obtain ⟨e2, hlt2⟩ := acquire_ref_of_nonneg h1 (by omega) h2
  have hx1 : Exact c.acquire := (acquire_exact_iff h h0).2 hlt1
  have hx2 : Exact c.acquire.acquire := (acquire_exact_iff hx1 h1).2 hlt2
  rw [acquire_exact_iff hx2 h2]
  omega

/-- A made object counts its first holder right only if its word was 0. -/
theorem made_acquire_exact_iff {ref : Int} (hpos : 0 ≤ ref) (hlt : ref < 2147483648) :
    Exact (Count.made ref).acquire ↔ ref = 0 := by
  simp only [Exact, Count.acquire, Count.hold, Count.made, i32]
  simp
  omega

theorem release_exact (h : Exact c) (hpos : 0 < c.ref) : Exact c.release := by
  obtain ⟨hd, hr, href⟩ := h.live (by omega)
  by_cases h1 : c.ref = 1
  · have hone : c.holders = 1 := by omega
    simp [Exact, Count.release, Count.put, Count.hold, hr, h1, hone]
  · have hn : c.holders - 1 ≠ 0 := by omega
    simp [Exact, Count.release, Count.put, Count.hold, hd, hr, h1, hn]
    omega

theorem forget_not_exact (h : Exact c) (hpos : 0 < c.holders) : ¬ Exact c.forget := by
  cases h with
  | inl h =>
    obtain ⟨hd, hr, href⟩ := h
    simp [Exact, Count.forget, Count.hold, hd, hr, href]
    omega
  | inr h => omega

theorem put_not_exact (h : Exact c) (hpos : 0 < c.ref) : ¬ Exact c.put := by
  obtain ⟨hd, hr, href⟩ := h.live (by omega)
  by_cases h1 : c.ref = 1
  · simp [Exact, Count.put, hd, hr, h1]
  · simp [Exact, Count.put, hd, hr, h1]
    omega

/-! ## Holders in lists -/

variable {α : Type}

theorem countP_eraseIdx {l : List α} {i : Nat} {a : α} (h : l[i]? = some a) (p : α → Bool) :
    l.countP p = (l.eraseIdx i).countP p + if p a then 1 else 0 := by
  obtain ⟨hi, rfl⟩ := List.getElem?_eq_some_iff.1 h
  rw [← (List.getElem_cons_eraseIdx_perm hi).countP_eq, List.countP_cons]

theorem sum_map_modify {l : List α} {i : Nat} {a : α} (h : l[i]? = some a) (g : α → α)
    (f : α → Nat) : ((l.modify i g).map f).sum + f a = (l.map f).sum + f (g a) := by
  induction l generalizing i with
  | nil => simp at h
  | cons b l ih =>
    cases i with
    | zero =>
      simp at h
      simp [h]
      omega
    | succ i =>
      simp at h
      have := ih h
      simp
      omega

end SpringOs.Lib.RefCount
