import Mathlib.Data.List.Basic
import Mathlib.Data.List.Pairwise
import Mathlib.Logic.Function.Basic
import SpringOs.Lib.Ranges

/-!
Blocks with a header, carved one after another out of a word memory, and the
null-terminated lists threaded through them.

* `Carved`: the blocks at a list of addresses lie in a range and do not overlap;
  a block's header holds its size. Kept by regrouping and by dropping blocks
  (`Carved.of_perm`), grown by `Carved.carve`.
* `Carved.frame`: a change inside some blocks leaves the words of the others.
* `Chain`: the list read from a head pointer, `0` being the null pointer.
* `flatMap_update`: replacing one part of a concatenation.
-/

namespace SpringOs.Lib.Cells
open Lib.Ranges
open Function (update update_self update_of_ne)

variable {hdr lo hi : Nat} {mem mem' : Nat → Nat} {H H' L : List Nat}

/-- The block whose header is at `h`: `hdr` bytes, then as many as its first word says. -/
def cell (hdr : Nat) (mem : Nat → Nat) (h : Nat) : Extent := ⟨h, hdr + mem h⟩

/-- The blocks at `H` lie between `lo` and `hi` and do not overlap. -/
structure Carved (hdr lo hi : Nat) (mem : Nat → Nat) (H : List Nat) : Prop where
  inside : ∀ h ∈ H, lo ≤ h ∧ h + (hdr + mem h) ≤ hi
  apart : (H.map (cell hdr mem)).Pairwise Extent.Apart

theorem Carved.nil : Carved hdr lo hi mem [] := ⟨by simp, by simp⟩

variable {y o p : Nat} {next : Nat → Nat} {l : List Nat}

theorem Carved.eq_of_add (c : Carved hdr lo hi mem H) {x : Nat} (hx : x ∈ H) (hy : y ∈ H)
    (ho : o < hdr + mem x) (hp : p < hdr + mem y) (he : x + o = y + p) : x = y := by
  have hxi : (cell hdr mem x).Has (x + o) := ⟨Nat.le_add_right x o, Nat.add_lt_add_left ho x⟩
  have hyi : (cell hdr mem y).Has (x + o) := he ▸ ⟨Nat.le_add_right y p, Nat.add_lt_add_left hp y⟩
  have heq := eq_of_has c.apart (List.mem_map_of_mem hx) (List.mem_map_of_mem hy) hxi hyi
  exact congrArg Extent.pos heq

theorem Carved.nodup (c : Carved hdr lo hi mem H) (hpos : 0 < hdr) : H.Nodup := by
  apply List.Pairwise.imp _ (List.pairwise_map.1 c.apart)
  rintro x y hxy rfl
  rcases hxy with h | h <;> simp only [cell] at h <;> omega

/-- The sizes unchanged, some blocks dropped, the others in any order. -/
theorem Carved.of_perm (c : Carved hdr lo hi mem H) (hp : H.Perm (H' ++ L))
    (hm : ∀ h ∈ H', mem' h = mem h) : Carved hdr lo hi mem' H' := by
  have hsub : ∀ h ∈ H', h ∈ H := fun h hh => hp.mem_iff.2 (List.mem_append_left L hh)
  constructor
  · intro h hh
    rw [hm h hh]
    exact c.inside h (hsub h hh)
  · have hcell : H'.map (cell hdr mem') = H'.map (cell hdr mem) :=
      List.map_congr_left fun h hh => by rw [cell, cell, hm h hh]
    have hall := (hp.map (cell hdr mem)).pairwise_iff (Std.Symm.symm _ _) |>.1 c.apart
    rw [List.map_append, List.pairwise_append] at hall
    rw [hcell]
    exact hall.1

/-- The next block is carved at `hi`. -/
theorem Carved.carve (c : Carved hdr lo hi mem H) (hlo : lo ≤ hi)
    (hm : ∀ a < hi, mem' a = mem a) (hpos : 0 < hdr) :
    Carved hdr lo (hi + (hdr + mem' hi)) mem' (hi :: H) := by
  have hlt : ∀ h ∈ H, h < hi := fun h hh => by
    have := c.inside h hh
    omega
  constructor
  · intro h hh
    rcases List.mem_cons.1 hh with rfl | hh
    · exact ⟨hlo, Nat.le_refl _⟩
    · have := c.inside h hh
      rw [hm h (hlt h hh)]
      omega
  · rw [List.map_cons, List.pairwise_cons]
    have hcell : H.map (cell hdr mem') = H.map (cell hdr mem) :=
      List.map_congr_left fun h hh => by rw [cell, cell, hm h (hlt h hh)]
    rw [hcell]
    refine ⟨?_, c.apart⟩
    intro e he
    obtain ⟨h, hh, rfl⟩ := List.mem_map.1 he
    exact Or.inr (c.inside h hh).2

/-- The memories differ only inside the blocks `T`. -/
def ChangedIn (hdr : Nat) (mem mem' : Nat → Nat) (T : List Nat) : Prop :=
  ∀ a, mem' a ≠ mem a → ∃ t ∈ T, ∃ o < hdr + mem t, a = t + o

theorem ChangedIn.refl (T : List Nat) : ChangedIn hdr mem mem T := fun _ h => absurd rfl h

variable {T : List Nat} {t : Nat} {α β : Type} {D : List α} {f : α → List β} {d : α}

theorem ChangedIn.update (h : ChangedIn hdr mem mem' T) (ht : t ∈ T) (ho : o < hdr + mem t)
    (v : Nat) : ChangedIn hdr mem (update mem' (t + o) v) T := by
  intro a ha
  by_cases he : a = t + o
  · exact ⟨t, ht, o, ho, he⟩
  · rw [update_of_ne he] at ha
    exact h a ha

/-- **A change inside the blocks `T` is not seen in another block.** -/
theorem Carved.frame (c : Carved hdr lo hi mem H) (hT : ∀ t ∈ T, t ∈ H)
    (hm : ChangedIn hdr mem mem' T) (hy : y ∈ H) (hyT : y ∉ T) (ho : o < hdr + mem y) :
    mem' (y + o) = mem (y + o) := by
  by_contra hne
  obtain ⟨t, ht, o', ho', he⟩ := hm _ hne
  exact hyT (c.eq_of_add hy (hT t ht) ho ho' he ▸ ht)

theorem Carved.update_ne (c : Carved hdr lo hi mem H) {o' : Nat} (ht : t ∈ H) (hy : y ∈ H)
    (ho : o < hdr + mem t) (ho' : o' < hdr + mem y) (hne : y ≠ t ∨ o' ≠ o) (v : Nat) :
    update mem' (t + o) v (y + o') = mem' (y + o') := by
  apply update_of_ne
  intro he
  have hyt := c.eq_of_add hy ht ho' ho he
  rcases hne with h | h
  · exact h hyt
  · omega

/-! ## Lists threaded through memory -/

/-- Following `next` from the pointer `p` gives the list, up to the null pointer. -/
def Chain (next : Nat → Nat) : Nat → List Nat → Prop
  | p, [] => p = 0
  | p, x :: xs => p = x ∧ x ≠ 0 ∧ Chain next (next x) xs

theorem Chain.congr {next' : Nat → Nat} (h : Chain next p l) (hn : ∀ x ∈ l, next' x = next x) :
    Chain next' p l := by
  induction l generalizing p with
  | nil => exact h
  | cons x xs ih =>
    obtain ⟨hp, hx, hxs⟩ := h
    refine ⟨hp, hx, ?_⟩
    rw [hn x List.mem_cons_self]
    exact ih hxs fun y hy => hn y (List.mem_cons_of_mem x hy)

theorem Chain.eq_cons (h : Chain next p l) (hp : p ≠ 0) :
    ∃ xs, l = p :: xs ∧ Chain next (next p) xs := by
  cases l with
  | nil => exact absurd h hp
  | cons x xs =>
    obtain ⟨rfl, _, hxs⟩ := h
    exact ⟨xs, rfl, hxs⟩

theorem Chain.unique {l' : List Nat} (h : Chain next p l) (h' : Chain next p l') : l = l' := by
  induction l generalizing p l' with
  | nil =>
    cases l' with
    | nil => rfl
    | cons y ys => exact absurd (h'.1.symm.trans h) h'.2.1
  | cons x xs ih =>
    obtain ⟨rfl, hx, hxs⟩ := h
    obtain ⟨ys, rfl, hys⟩ := h'.eq_cons hx
    rw [ih hxs hys]

/-! ## A concatenation with one part replaced -/

theorem flatMap_update_of_notMem [DecidableEq α] {ys : List β} (hd : d ∉ D) :
    D.flatMap (update f d ys) = D.flatMap f := by
  apply List.flatMap_congr
  intro x hx
  have hne : x ≠ d := fun he => hd (he ▸ hx)
  exact update_of_ne hne _ _

theorem flatMap_update [DecidableEq α] (hnd : D.Nodup) (hd : d ∈ D) (ys : List β) :
    (D.flatMap (update f d ys) ++ f d).Perm (D.flatMap f ++ ys) := by
  induction D with
  | nil => cases hd
  | cons x D ih =>
    rw [List.nodup_cons] at hnd
    rw [List.flatMap_cons, List.flatMap_cons]
    rcases List.mem_cons.1 hd with rfl | hd
    · rw [update_self, flatMap_update_of_notMem hnd.1]
      calc (ys ++ D.flatMap f ++ f d).Perm (f d ++ (ys ++ D.flatMap f)) :=
            List.perm_append_comm
        _ |>.Perm (f d ++ (D.flatMap f ++ ys)) := List.Perm.append_left _ List.perm_append_comm
        _ = f d ++ D.flatMap f ++ ys := (List.append_assoc ..).symm
    · have hne : x ≠ d := fun he => hnd.1 (he ▸ hd)
      rw [update_of_ne hne, List.append_assoc, List.append_assoc]
      exact (ih hnd.2 hd).append_left (f x)

end SpringOs.Lib.Cells
