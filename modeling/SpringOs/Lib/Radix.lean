import Mathlib.Algebra.Group.Nat.Defs
import Mathlib.Logic.Function.Basic

/-!
Radix trees kept in memory: pages of `b` entries, some of which name a further
page. An entry is of any type `E`; `child` says which page it names, if any. A page
has a height (0 for the last level) and a prefix: it serves the numbers `n` with
`n / b ^ (height + 1) = prefix`.

* `walk` follows a number down to where it ends;
* `Reach` says which pages belong to the tree, and `IsTree` that each has one place;
* `walk_of_reach`: the walk from the root passes every page on the number's path;
* `walk_agree`: entries that a walk does not pass do not matter to it;
* `reach_set`, `walk_set`: storing an entry that names no page;
* `reach_attach`, `walk_attach`: hanging an empty page into the tree;
* `reach_congr`, `walk_congr`: nor do pages outside the tree.
-/

namespace SpringOs.Lib.Radix
open Function (update update_self update_of_ne)

variable {p i x n r q c rp b root top : Nat} {E : Type} {child : E → Option Nat}
  {mem : Nat → Nat → E}

/-- Where the walk for `n` from page `p` at height `r` ends: the height there and the
entry read. -/
def walk (child : E → Option Nat) (b : Nat) (mem : Nat → Nat → E) (n : Nat) :
    Nat → Nat → Nat × E
  | p, 0 => (0, mem p (n % b))
  | p, r + 1 =>
    match child (mem p (n / b ^ (r + 1) % b)) with
    | some c => walk child b mem n c r
    | none => (r + 1, mem p (n / b ^ (r + 1) % b))

/-- Page `p` is in the tree, at height `r` and with prefix `q`. -/
inductive Reach (child : E → Option Nat) (b : Nat) (mem : Nat → Nat → E) (root top : Nat) :
    Nat → Nat → Nat → Prop
  | root : Reach child b mem root top top 0 root
  | step {r q p i c : Nat} : Reach child b mem root top (r + 1) q p → i < b →
      child (mem p i) = some c → Reach child b mem root top r (b * q + i) c

/-- Every page of the tree has one place in it. -/
def IsTree (child : E → Option Nat) (b : Nat) (mem : Nat → Nat → E) (root top : Nat) : Prop :=
  ∀ ⦃r q r' q' p : Nat⦄, Reach child b mem root top r q p → Reach child b mem root top r' q' p →
    r = r' ∧ q = q'

def setEntry (mem : Nat → Nat → E) (p i : Nat) (e : E) : Nat → Nat → E :=
  update mem p (update (mem p) i e)

theorem setEntry_self (mem : Nat → Nat → E) (p i : Nat) (e : E) : setEntry mem p i e p i = e := by
  simp [setEntry]

theorem setEntry_of_ne {j : Nat} (h : ¬ (x = p ∧ j = i)) (e : E) :
    setEntry mem p i e x j = mem x j := by
  unfold setEntry
  by_cases hx : x = p
  · subst hx
    rw [update_self, update_of_ne fun hj => h ⟨rfl, hj⟩]
  · rw [update_of_ne hx]

/-! ## Digits -/

theorem div_pow_succ (n r : Nat) : n / b ^ (r + 1) = n / b ^ r / b := by
  rw [Nat.div_div_eq_div_mul, Nat.pow_succ]

theorem div_pow_eq_iff (hi : i < b) :
    n / b ^ r = b * q + i ↔ n / b ^ (r + 1) = q ∧ n / b ^ r % b = i := by
  rw [div_pow_succ]
  have hb : 0 < b := by omega
  constructor
  · intro h
    rw [h, Nat.mul_add_div hb, Nat.div_eq_of_lt hi, Nat.mul_add_mod, Nat.mod_eq_of_lt hi]
    exact ⟨rfl, rfl⟩
  · rintro ⟨rfl, rfl⟩
    exact (Nat.div_add_mod _ _).symm

/-! ## Walks and places -/

theorem walk_succ_some (h : child (mem p (n / b ^ (r + 1) % b)) = some c) :
    walk child b mem n p (r + 1) = walk child b mem n c r := by
  rw [walk, h]

theorem walk_of_none (h : r = 0 ∨ child (mem p (n / b ^ r % b)) = none) :
    walk child b mem n p r = (r, mem p (n / b ^ r % b)) := by
  cases r with
  | zero => simp [walk]
  | succ r => rw [walk, h.resolve_left (Nat.succ_ne_zero r)]

theorem walk_of_reach (h : Reach child b mem root top r q p) (hn : n / b ^ (r + 1) = q) :
    walk child b mem n root top = walk child b mem n p r := by
  induction h with
  | root => rfl
  | @step r q p i c _ hi hc ih =>
    obtain ⟨hq, hd⟩ := (div_pow_eq_iff hi).1 hn
    rw [ih hq, walk_succ_some (hd ▸ hc)]

theorem Reach.down (hb : 0 < b) (h : Reach child b mem root top (r + 1) (n / b ^ (r + 1 + 1)) p)
    (hc : child (mem p (n / b ^ (r + 1) % b)) = some c) :
    Reach child b mem root top r (n / b ^ (r + 1)) c := by
  have hdig := Nat.mod_lt (n / b ^ (r + 1)) hb
  rw [(div_pow_eq_iff hdig).2 ⟨rfl, rfl⟩]
  exact .step h hdig hc

/-- A walk ends on a page of the tree, at an entry that names no page. -/
theorem exists_walk_end (hb : 0 < b) (h : Reach child b mem root top r (n / b ^ (r + 1)) p) :
    ∃ r' p', Reach child b mem root top r' (n / b ^ (r' + 1)) p' ∧
      (r' = 0 ∨ child (mem p' (n / b ^ r' % b)) = none) ∧
      walk child b mem n p r = (r', mem p' (n / b ^ r' % b)) := by
  induction r generalizing p with
  | zero => exact ⟨0, p, h, .inl rfl, walk_of_none (.inl rfl)⟩
  | succ r ih =>
    cases hc : child (mem p (n / b ^ (r + 1) % b)) with
    | none => exact ⟨r + 1, p, h, .inr hc, walk_of_none (.inr hc)⟩
    | some c =>
      rw [walk_succ_some hc]
      exact ih (h.down hb hc)

/-- A walk depends on the entries it passes. Only those with `P` need to agree, if these are the
ones that name a page and the one where the walk ends. -/
theorem walk_agree {mem' : Nat → Nat → E} {P : E → Prop} (hb : 0 < b)
    (hname : ∀ {e : E} {c : Nat}, child e = some c → P e)
    (h : ∀ {r p : Nat}, Reach child b mem root top r (n / b ^ (r + 1)) p →
      P (mem p (n / b ^ r % b)) → mem' p (n / b ^ r % b) = mem p (n / b ^ r % b))
    (hx : Reach child b mem root top r (n / b ^ (r + 1)) x) (hend : P (walk child b mem n x r).2) :
    walk child b mem' n x r = walk child b mem n x r := by
  induction r generalizing x with
  | zero =>
    rw [walk_of_none (.inl rfl)] at hend
    rw [walk_of_none (.inl rfl), walk_of_none (.inl rfl), h hx hend]
  | succ r ih =>
    cases hc : child (mem x (n / b ^ (r + 1) % b)) with
    | none =>
      rw [walk_of_none (.inr hc)] at hend
      rw [walk_of_none (.inr hc), walk_of_none (.inr (by rw [h hx hend, hc])), h hx hend]
    | some c =>
      rw [walk_succ_some hc] at hend
      rw [walk_succ_some hc, walk_succ_some (by rw [h hx (hname hc), hc]), ih (hx.down hb hc) hend]

/-! ## Storing an entry -/

theorem walk_set_ne (hb : 0 < b) (ht : IsTree child b mem root top)
    (hp : Reach child b mem root top rp q p) (hi : i < b) (e : E) (hn : n / b ^ rp ≠ b * q + i)
    (hx : Reach child b mem root top r (n / b ^ (r + 1)) x) :
    walk child b (setEntry mem p i e) n x r = walk child b mem n x r := by
  refine walk_agree (P := fun _ => True) hb (fun _ => trivial) (fun hx _ => ?_) hx trivial
  apply setEntry_of_ne
  rintro ⟨rfl, hd⟩
  obtain ⟨rfl, hq⟩ := ht hx hp
  exact hn ((div_pow_eq_iff hi).2 ⟨hq, hd⟩)

/-- Storing over an entry that names no page loses no place. -/
theorem Reach.set {r' q' : Nat} (h : Reach child b mem root top r' q' x)
    (hold : ∀ {r q}, Reach child b mem root top (r + 1) q p → child (mem p i) = none) (e : E) :
    Reach child b (setEntry mem p i e) root top r' q' x := by
  induction h with
  | root => exact .root
  | @step r q' x j c hx hj hc ih =>
    by_cases heq : x = p ∧ j = i
    · obtain ⟨rfl, rfl⟩ := heq
      rw [hold hx] at hc
      cases hc
    · exact .step ih hj ((setEntry_of_ne heq e).symm ▸ hc)

section

variable {e : E} (ht : IsTree child b mem root top) (hp : Reach child b mem root top rp q p)
  (hold : rp = 0 ∨ child (mem p i) = none) (hnew : rp = 0 ∨ child e = none)
include ht hp hold hnew

/-- Storing an entry that names no page over one that names none changes no place. -/
theorem reach_set {r' q' : Nat} :
    Reach child b (setEntry mem p i e) root top r' q' x ↔ Reach child b mem root top r' q' x := by
  constructor
  · intro h
    induction h with
    | root => exact .root
    | @step r q' x j c _ hj hc ih =>
      by_cases heq : x = p ∧ j = i
      · obtain ⟨rfl, rfl⟩ := heq
        have hr : rp ≠ 0 := by have := (ht ih hp).1; omega
        rw [setEntry_self, hnew.resolve_left hr] at hc
        cases hc
      · rw [setEntry_of_ne heq] at hc
        exact .step ih hj hc
  · refine fun h => h.set (fun hx => hold.resolve_left ?_) e
    have := (ht hx hp).1
    omega

theorem isTree_set : IsTree child b (setEntry mem p i e) root top := fun _ _ _ _ _ h h' =>
  ht ((reach_set ht hp hold hnew).1 h) ((reach_set ht hp hold hnew).1 h')

end

/-- The walks that pass the stored entry end there. -/
theorem walk_set (hb : 0 < b) (ht : IsTree child b mem root top)
    (hp : Reach child b mem root top rp q p) (hi : i < b) {e : E}
    (hold : rp = 0 ∨ child (mem p i) = none) (hnew : rp = 0 ∨ child e = none)
    (htop : n / b ^ (top + 1) = 0) :
    walk child b (setEntry mem p i e) n root top =
      if n / b ^ rp = b * q + i then (rp, e) else walk child b mem n root top := by
  split
  · rename_i hn
    obtain ⟨hq, hd⟩ := (div_pow_eq_iff hi).1 hn
    have hp' := (reach_set ht hp hold hnew).2 hp
    rw [walk_of_reach hp' hq, walk_of_none, hd, setEntry_self]
    rwa [hd, setEntry_self]
  · rename_i hn
    exact walk_set_ne hb ht hp hi e hn (htop ▸ .root)

/-! ## Hanging a page into the tree -/

section

variable {e z : E} (ht : IsTree child b mem root top) (hp : Reach child b mem root top (r + 1) q p)
  (hi : i < b) (hold : child (mem p i) = none) (hfresh : ∀ r q, ¬ Reach child b mem root top r q c)
  (he : child e = some c) (hz : mem c = fun _ => z) (hz' : child z = none)
include ht hp hi hold hfresh he hz hz'

/-- Storing an entry that names an empty page from outside the tree adds its place. -/
theorem reach_attach {r' q' : Nat} :
    Reach child b (setEntry mem p i e) root top r' q' x ↔
      Reach child b mem root top r' q' x ∨ r' = r ∧ q' = b * q + i ∧ x = c := by
  constructor
  · intro h
    induction h with
    | root => exact .inl .root
    | @step r' q' x j c' _ hj hc ih =>
      obtain hx | ⟨-, -, rfl⟩ := ih
      · by_cases heq : x = p ∧ j = i
        · obtain ⟨rfl, rfl⟩ := heq
          rw [setEntry_self, he] at hc
          cases hc
          obtain ⟨hr, rfl⟩ := ht hx hp
          exact .inr ⟨by omega, rfl, rfl⟩
        · rw [setEntry_of_ne heq] at hc
          exact .inl (.step hx hj hc)
      · have hne : ¬ (x = p ∧ j = i) := fun heq => hfresh _ _ (heq.1 ▸ hp)
        rw [setEntry_of_ne hne, hz, hz'] at hc
        cases hc
  · rintro (h | ⟨rfl, rfl, rfl⟩)
    · exact h.set (fun _ => hold) e
    · exact .step (hp.set (fun _ => hold) e) hi (by rw [setEntry_self, he])

theorem isTree_attach : IsTree child b (setEntry mem p i e) root top := by
  intro r1 q1 r2 q2 x h1 h2
  obtain h1 | ⟨rfl, rfl, rfl⟩ := (reach_attach ht hp hi hold hfresh he hz hz').1 h1
  · obtain h2 | ⟨rfl, rfl, rfl⟩ := (reach_attach ht hp hi hold hfresh he hz hz').1 h2
    · exact ht h1 h2
    · exact absurd h1 (hfresh _ _)
  · obtain h2 | ⟨rfl, rfl, -⟩ := (reach_attach ht hp hi hold hfresh he hz hz').1 h2
    · exact absurd h2 (hfresh _ _)
    · exact ⟨rfl, rfl⟩

end

/-- The walks that ended at the old entry now end in the empty page. -/
theorem walk_attach (hb : 0 < b) (ht : IsTree child b mem root top) {e z : E}
    (hp : Reach child b mem root top (r + 1) q p) (hi : i < b) (hold : child (mem p i) = none)
    (hfresh : ∀ r q, ¬ Reach child b mem root top r q c) (he : child e = some c)
    (hz : mem c = fun _ => z) (hz' : child z = none) (htop : n / b ^ (top + 1) = 0) :
    walk child b (setEntry mem p i e) n root top =
      if n / b ^ (r + 1) = b * q + i then (r, z) else walk child b mem n root top := by
  split
  · rename_i hn
    have hc := (reach_attach ht hp hi hold hfresh he hz hz').2 (.inr ⟨rfl, rfl, rfl⟩)
    have hread : ∀ j, setEntry mem p i e c j = z := by
      intro j
      rw [setEntry_of_ne fun heq => hfresh _ _ (heq.1 ▸ hp), hz]
    rw [walk_of_reach hc hn, walk_of_none (.inr (by rw [hread, hz'])), hread]
  · rename_i hn
    exact walk_set_ne hb ht hp hi e hn (htop ▸ .root)

/-! ## Pages outside the tree -/

section congr

variable {mem' : Nat → Nat → E}
  (h : ∀ {r q p : Nat}, Reach child b mem root top r q p → mem' p = mem p)
include h

/-- A memory with the same pages in the tree has the same tree. -/
theorem reach_congr : Reach child b mem' root top r q x ↔ Reach child b mem root top r q x := by
  constructor
  · intro hx
    induction hx with
    | root => exact .root
    | step _ hj hc ih =>
      rw [h ih] at hc
      exact .step ih hj hc
  · intro hx
    induction hx with
    | root => exact .root
    | step hx hj hc ih =>
      rw [← h hx] at hc
      exact .step ih hj hc

theorem walk_congr (hb : 0 < b) (hx : Reach child b mem root top r (n / b ^ (r + 1)) x) :
    walk child b mem' n x r = walk child b mem n x r :=
  walk_agree (P := fun _ => True) hb (fun _ => trivial) (fun hp _ => by rw [h hp]) hx trivial

end congr

end SpringOs.Lib.Radix
