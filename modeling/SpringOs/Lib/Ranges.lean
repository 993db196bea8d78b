import Mathlib.Data.List.Pairwise

/-!
Half-open ranges of natural numbers, and lists of them that do not overlap: the
page indices of blocks, the bytes of objects.
-/

namespace SpringOs.Lib.Ranges

/-- The numbers from `pos` on, `len` of them. -/
structure Extent where
  pos : Nat
  len : Nat
  deriving DecidableEq, Repr

def Extent.Has (a : Extent) (i : Nat) : Prop := a.pos ≤ i ∧ i < a.pos + a.len

instance (a : Extent) (i : Nat) : Decidable (a.Has i) := inferInstanceAs (Decidable (_ ∧ _))

def Extent.Apart (a b : Extent) : Prop := a.pos + a.len ≤ b.pos ∨ b.pos + b.len ≤ a.pos

instance (a b : Extent) : Decidable (a.Apart b) := inferInstanceAs (Decidable (_ ∨ _))

instance : Std.Symm Extent.Apart := ⟨fun _ _ h => Or.symm h⟩

theorem Extent.Apart.not_has {a b : Extent} (h : a.Apart b) {i : Nat} (ha : a.Has i) :
    ¬ b.Has i := by
  unfold Extent.Has at *
  rcases h with h | h <;> omega

theorem eq_of_has {l : List Extent} (h : l.Pairwise Extent.Apart) {a b : Extent} (ha : a ∈ l)
    (hb : b ∈ l) {i : Nat} (hai : a.Has i) (hbi : b.Has i) : a = b := by
  by_contra hne
  exact (h.forall ha hb hne).not_has hai hbi

end SpringOs.Lib.Ranges
