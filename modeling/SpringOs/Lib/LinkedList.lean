import Mathlib.Logic.Function.Basic

/-!
Circular doubly linked lists with a head, as `list.h` of many kernels has them: the nodes
carry their links, an empty list is a head that points at itself.

* **`Ring`**: the links of a head and its entries, in order;
* `Ring.addTail`, `Ring.del`: the list after one operation;
* `Ring.unique`: the links determine the entries;
* **`Rings`**: a family of lists in one memory, and what each operation does to it;
* **`Embeds`**: the links of one memory among those of a larger one.
-/

namespace SpringOs.Lib.LinkedList
open Function (Injective extend update update_self update_of_ne update_idem update_comm
  update_apply)

variable {α : Type}

structure Links (α : Type) where
  next : α → α
  prev : α → α

/-! ## Lists in memory -/

def Linked (m : Links α) (a b : α) : Prop := m.next a = b ∧ m.prev b = a

/-- The nodes `xs` between `a` and `b`. -/
def Path (m : Links α) : α → List α → α → Prop
  | a, [], b => Linked m a b
  | a, x :: xs, b => Linked m a x ∧ Path m x xs b

/-- The entries `xs` of the list with head `h`. -/
def Ring (m : Links α) (h : α) (xs : List α) : Prop := (h :: xs).Nodup ∧ Path m h xs h

variable {m : Links α} {a b h : α} {xs ys : List α}

theorem path_append {x : α} : Path m a (xs ++ x :: ys) b ↔ Path m a xs x ∧ Path m x ys b := by
  induction xs generalizing a with
  | nil => exact Iff.rfl
  | cons y xs ih => simp only [List.cons_append, Path, ih, and_assoc]

theorem Path.congr {m' : Links α} (h : Path m a xs b) (hnext : ∀ z ∈ a :: xs, m'.next z = m.next z)
    (hprev : ∀ z ∈ xs ++ [b], m'.prev z = m.prev z) : Path m' a xs b := by
  induction xs generalizing a with
  | nil =>
    exact ⟨(hnext a (by simp)).trans h.1, (hprev b (by simp)).trans h.2⟩
  | cons x xs ih =>
    refine ⟨⟨(hnext a (by simp)).trans h.1.1, (hprev x (by simp)).trans h.1.2⟩, ih h.2 ?_ ?_⟩
    · exact fun z hz => hnext z (List.mem_cons_of_mem _ hz)
    · exact fun z hz => hprev z (List.mem_cons_of_mem _ hz)

theorem Ring.congr {m' : Links α} (hr : Ring m h xs)
    (hsame : ∀ z ∈ h :: xs, m'.next z = m.next z ∧ m'.prev z = m.prev z) : Ring m' h xs := by
  refine ⟨hr.1, hr.2.congr (fun z hz => (hsame z hz).1) fun z hz => (hsame z ?_).2⟩
  simpa [or_comm] using hz

theorem Path.unique (h : Path m a xs b) (h' : Path m a ys b) (hx : b ∉ xs) (hy : b ∉ ys) :
    xs = ys := by
  induction xs generalizing a ys with
  | nil =>
    cases ys with
    | nil => rfl
    | cons y ys => exact absurd (h.1.symm.trans h'.1.1) (List.ne_of_not_mem_cons hy)
  | cons x xs ih =>
    cases ys with
    | nil => exact absurd (h'.1.symm.trans h.1.1) (List.ne_of_not_mem_cons hx)
    | cons y ys =>
      obtain rfl : x = y := h.1.1.symm.trans h'.1.1
      rw [ih h.2 h'.2 (List.not_mem_of_not_mem_cons hx) (List.not_mem_of_not_mem_cons hy)]

/-- The links determine the entries. -/
theorem Ring.unique (hr : Ring m h xs) (hr' : Ring m h ys) : xs = ys :=
  hr.2.unique hr'.2 (List.nodup_cons.1 hr.1).1 (List.nodup_cons.1 hr'.1).1

/-! ## The first entry -/

theorem Ring.next_cons {x : α} (hr : Ring m h (x :: xs)) : m.next h = x ∧ x ≠ h := by
  refine ⟨hr.2.1.1, ?_⟩
  rintro rfl
  simp [Ring] at hr

theorem Path.prev_mem (h : Path m a xs b) : m.prev b ∈ a :: xs := by
  induction xs generalizing a with
  | nil => exact List.mem_singleton.2 h.2
  | cons x xs ih => exact List.mem_cons_of_mem a (ih h.2)

theorem Path.next_mem (h : Path m a xs b) : m.next a ∈ xs ++ [b] := by
  cases xs with
  | nil => exact List.mem_singleton.2 h.1
  | cons x xs => exact h.1.1 ▸ List.mem_cons_self

/-- The node before the head is the last entry, or the head of an empty list. -/
theorem Ring.prev_mem (hr : Ring m h xs) : m.prev h ∈ h :: xs := Path.prev_mem hr.2

/-! ## Two memories -/

section
variable {β : Type} {f : α → β}

/-- The nodes of `m` are nodes of `m'`, with the same links. -/
def Embeds (f : α → β) (m : Links α) (m' : Links β) : Prop :=
  ∀ z, m'.next (f z) = f (m.next z) ∧ m'.prev (f z) = f (m.prev z)

theorem exists_embeds (hf : Injective f) (b : β) (m : Links α) : ∃ m', Embeds f m m' := by
  let image (g : α → α) : β → β := extend f (f ∘ g) fun _ => b
  have himage : ∀ g z, image g (f z) = f (g z) := fun g z => hf.extend_apply (f ∘ g) _ z
  exact ⟨⟨image m.next, image m.prev⟩, fun z => ⟨himage m.next z, himage m.prev z⟩⟩

end

/-! ## Operations -/

variable [DecidableEq α]

/-- An empty list at `h`. -/
def Links.init (m : Links α) (h : α) : Links α :=
  ⟨update m.next h h, update m.prev h h⟩

/-- `x` goes between two neighbours; the links are set in this order. -/
def Links.addBetween (m : Links α) (x a b : α) : Links α where
  next := update (update m.next x b) a x
  prev := update (update m.prev b x) x a

def Links.addTail (m : Links α) (x h : α) : Links α := m.addBetween x (m.prev h) h

/-- The neighbours of `x` are linked, then the links of `x` are spoilt. -/
def Links.del (m : Links α) (x poison poison' : α) : Links α where
  next := update (update m.next (m.prev x) (m.next x)) x poison
  prev := update (update m.prev (m.next x) (m.prev x)) x poison'

theorem Ring.init (m : Links α) (h : α) : Ring (m.init h) h [] :=
  ⟨by simp, by simp [Path, Linked, Links.init]⟩

variable {m : Links α} {h x : α}

theorem init_other {z : α} (hz : z ≠ h) :
    (m.init h).next z = m.next z ∧ (m.init h).prev z = m.prev z :=
  ⟨update_of_ne hz .., update_of_ne hz ..⟩

/-- An entry need not be made before it is added. -/
theorem init_addTail (hx : x ≠ h) : (m.init x).addTail x h = m.addTail x h := by
  rw [Links.addTail, (init_other hx.symm).2]
  unfold Links.addTail Links.addBetween Links.init
  simp only [update_idem]
  rw [update_comm hx, update_idem]

theorem Ring.addTail {xs : List α} (hr : Ring m h xs) (hx : x ∉ h :: xs) :
    Ring (m.addTail x h) h (xs ++ [x]) := by
  have hxh : x ≠ h := fun e => hx (e ▸ List.mem_cons_self ..)
  refine ⟨?_, ?_⟩
  · have hnodup : ((h :: xs) ++ [x]).Nodup :=
      List.nodup_append.2 ⟨hr.1, by simp, by
        intro a ha b hb
        rw [List.mem_singleton.1 hb]
        exact fun e => hx (e ▸ ha)⟩
    exact hnodup
  · rcases List.eq_nil_or_concat xs with rfl | ⟨ys, l, rfl⟩
    · have hprev : m.prev h = h := hr.2.2
      simp [Path, Linked, Links.addTail, Links.addBetween, hprev, hxh, hxh.symm]
    · rw [List.concat_eq_append] at hr hx ⊢
      obtain ⟨hpath, hl⟩ := path_append.1 hr.2
      have hprev : m.prev h = l := hl.2
      have hnodup := hr.1
      simp only [List.mem_cons, List.mem_append, List.nodup_cons, List.nodup_append] at hx hnodup
      rw [List.append_assoc]
      refine path_append.2 ⟨hpath.congr ?_ ?_, ?_⟩
      · intro z hz
        have hzx : z ≠ x := by grind
        have hzl : z ≠ l := by grind
        simp [Links.addTail, Links.addBetween, hprev, hzx, hzl]
      · intro z hz
        have hzx : z ≠ x := by grind
        have hzh : z ≠ h := by grind
        simp [Links.addTail, Links.addBetween, hzx, hzh]
      · have hlx : l ≠ x := by grind
        simp [Path, Linked, Links.addTail, Links.addBetween, hprev, hxh.symm, hlx.symm]

theorem addTail_other {z : α} {xs : List α} (hr : Ring m h xs) (hzx : z ≠ x) (hz : z ∉ h :: xs) :
    (m.addTail x h).next z = m.next z ∧ (m.addTail x h).prev z = m.prev z := by
  have hzl : z ≠ m.prev h := fun e => hz (e ▸ hr.prev_mem)
  have hzh : z ≠ h := fun e => hz (e ▸ List.mem_cons_self ..)
  simp [Links.addTail, Links.addBetween, hzx, hzl, hzh]

/-! ## Deletion -/

section
variable {m : Links α} {h x z : α} {xs ys : List α} {p p' : α}

theorem del_other (hr : Ring m h (xs ++ x :: ys)) (hz : z ∉ h :: (xs ++ x :: ys)) :
    (m.del x p p').next z = m.next z ∧ (m.del x p p').prev z = m.prev z := by
  obtain ⟨hfront, hrear⟩ := path_append.1 hr.2
  have hprev := hfront.prev_mem
  have hnext := hrear.next_mem
  have hzx : z ≠ x := by grind
  have hzp : z ≠ m.prev x := by grind
  have hzn : z ≠ m.next x := by grind
  simp [Links.del, hzx, hzp, hzn]

theorem Path.del {a : α} (hpath : Path m a xs x) (hnodup : (a :: xs).Nodup) (hx : x ∉ a :: xs)
    (hnext : m.next x ∉ x :: xs) : Path (m.del x p p') a xs (m.next x) := by
  induction xs generalizing a with
  | nil =>
    have hprev : m.prev x = a := hpath.2
    have hax : a ≠ x := by grind
    have hnx : m.next x ≠ x := by grind
    simp [Path, Linked, Links.del, hprev, hax, hnx]
  | cons y xs ih =>
    obtain ⟨⟨hay, hya⟩, hpath⟩ := hpath
    obtain ⟨hnot, hnodup⟩ := List.nodup_cons.1 hnodup
    refine ⟨⟨?_, ?_⟩, ih hpath hnodup (by grind) (by grind)⟩
    · have hlast : a ≠ m.prev x := fun e => hnot (e ▸ hpath.prev_mem)
      have hax : a ≠ x := by grind
      simp [Links.del, hax, hlast, hay]
    · have hyx : y ≠ x := by grind
      have hyn : y ≠ m.next x := by grind
      simp [Links.del, hyx, hyn, hya]

theorem Ring.del (hr : Ring m h (xs ++ x :: ys)) : Ring (m.del x p p') h (xs ++ ys) := by
  obtain ⟨hnodup, hpath⟩ := hr
  obtain ⟨hfront, hrear⟩ := path_append.1 hpath
  have hmem := hfront.prev_mem
  refine ⟨by grind, ?_⟩
  cases ys with
  | nil =>
    obtain rfl : m.next x = h := hrear.1
    rw [List.append_nil]
    exact hfront.del (by grind) (by grind) (by grind)
  | cons y ys =>
    obtain ⟨⟨hy, -⟩, hrest⟩ := hrear
    subst hy
    refine path_append.2 ⟨hfront.del (by grind) (by grind) (by grind), hrest.congr ?_ ?_⟩
    · intro z hz
      have hzx : z ≠ x := by grind
      have hzp : z ≠ m.prev x := by grind
      simp [Links.del, hzx, hzp]
    · intro z hz
      have hzx : z ≠ x := by grind
      have hzn : z ≠ m.next x := by grind
      simp [Links.del, hzx, hzn]

end

/-! ## Several lists in one memory -/

section
variable {ι : Type}

/-- The lists `q` of the heads `head`; no node is in two of them. -/
structure Rings (m : Links α) (head : ι → α) (q : ι → List α) : Prop where
  ring : ∀ i, Ring m (head i) (q i)
  apart : ∀ i j, i ≠ j → ∀ z ∈ head i :: q i, z ∉ head j :: q j

/-- Lists are made one after the other; the later ones leave the earlier ones alone. -/
theorem ring_foldl_init {m : Links α} {h : α} {hs : List α} (hh : h ∈ hs ∨ Ring m h []) :
    Ring (hs.foldl Links.init m) h [] := by
  induction hs generalizing m with
  | nil => exact hh.resolve_left List.not_mem_nil
  | cons h' hs ih =>
    apply ih
    by_cases heq : h = h'
    · subst heq
      exact .inr (Ring.init m h)
    · rcases hh with hmem | hr
      · exact .inl ((List.mem_cons.1 hmem).resolve_left heq)
      · refine .inr (hr.congr fun z hz => ?_)
        rw [List.mem_singleton.1 hz]
        exact init_other heq

theorem foldl_init_other {m : Links α} {z : α} {hs : List α} (hz : z ∉ hs) :
    (hs.foldl Links.init m).next z = m.next z ∧ (hs.foldl Links.init m).prev z = m.prev z := by
  induction hs generalizing m with
  | nil => exact ⟨rfl, rfl⟩
  | cons h hs ih =>
    obtain ⟨hne, hrest⟩ := not_or.1 (mt List.mem_cons.2 hz)
    obtain ⟨hnext, hprev⟩ := @ih (m.init h) hrest
    obtain ⟨hnext', hprev'⟩ := init_other (m := m) hne
    exact ⟨hnext.trans hnext', hprev.trans hprev'⟩

variable {m : Links α} {head : ι → α} {q : ι → List α} {x : α}

theorem Rings.init (h : Rings m head q) (hx : ∀ i, x ∉ head i :: q i) :
    Rings (m.init x) head q where
  ring i := (h.ring i).congr fun _ hz => init_other fun e => hx i (e ▸ hz)
  apart := h.apart

variable [DecidableEq ι]

theorem Rings.addTail (h : Rings m head q) (i : ι) (hx : ∀ j, x ∉ head j :: q j) :
    Rings (m.addTail x (head i)) head (update q i (q i ++ [x])) where
  ring j := by
    by_cases hj : j = i
    · subst hj
      rw [update_self]
      exact (h.ring j).addTail (hx j)
    · rw [update_of_ne hj]
      refine (h.ring j).congr fun z hz => ?_
      exact addTail_other (h.ring i) (fun e => hx j (e ▸ hz)) (h.apart j i hj z hz)
  apart j k hjk z hz := by
    have hold := h.apart j k hjk
    have hxj := hx j
    have hxk := hx k
    grind [update_apply]

theorem Rings.del (h : Rings m head q) {i : ι} {xs ys : List α} (hq : q i = xs ++ x :: ys)
    (p p' : α) : Rings (m.del x p p') head (update q i (xs ++ ys)) where
  ring j := by
    have hring := h.ring i
    rw [hq] at hring
    by_cases hj : j = i
    · subst hj
      rw [update_self]
      exact hring.del
    · rw [update_of_ne hj]
      refine (h.ring j).congr fun z hz => del_other hring ?_
      rw [← hq]
      exact h.apart j i hj z hz
  apart j k hjk z hz := by
    have hold := h.apart j k hjk
    grind [update_apply]

omit [DecidableEq α] in
/-- An entry that was deleted is in no list. -/
theorem Rings.del_notMem (h : Rings m head q) {i : ι} {xs ys : List α}
    (hq : q i = xs ++ x :: ys) (j : ι) : x ∉ head j :: update q i (xs ++ ys) j := by
  by_cases hj : j = i
  · subst hj
    have hnodup := (h.ring j).1
    rw [hq] at hnodup
    rw [update_self]
    grind
  · rw [update_of_ne hj]
    apply h.apart i j (Ne.symm hj)
    rw [hq]
    simp

end

/-! ## What a link can be -/

section
variable {P : α → Prop} {m : Links α} {h x z p p' : α}

theorem init_next (hh : P h) (hz : z ≠ h → P (m.next z)) : P ((m.init h).next z) := by
  by_cases hzh : z = h
  · simpa [Links.init, hzh] using hh
  · simpa [Links.init, hzh] using hz hzh

theorem addTail_next (hx : P x) (hh : P h) (hz : z ≠ x → P (m.next z)) :
    P ((m.addTail x h).next z) := by
  by_cases hzl : z = m.prev h
  · simpa [Links.addTail, Links.addBetween, hzl] using hx
  · by_cases hzx : z = x
    · subst hzx
      simpa [Links.addTail, Links.addBetween, hzl] using hh
    · simpa [Links.addTail, Links.addBetween, hzl, hzx] using hz hzx

theorem del_next (hp : P p) (hx : P (m.next x)) (hz : P (m.next z)) :
    P ((m.del x p p').next z) := by
  by_cases hzx : z = x
  · simpa [Links.del, hzx] using hp
  · by_cases hzl : z = m.prev x
    · subst hzl
      simpa [Links.del, hzx] using hx
    · simpa [Links.del, hzx, hzl] using hz

end

/-! ## Operations on two memories -/

section
variable {β : Type} [DecidableEq β] {f : α → β} {m : Links α} {m' : Links β}

theorem update_embeds (hf : Injective f) {g : α → α} {g' : β → β}
    (hg : ∀ z, g' (f z) = f (g z)) (a b z : α) :
    update g' (f a) (f b) (f z) = f (update g a b z) := by
  by_cases hz : z = a
  · simp [hz]
  · simp [hz, hf.ne hz, hg]

theorem Embeds.foldl_init (h : Embeds f m m') {hs : List α} {hs' : List β}
    (hhs : ∀ z, f z ∈ hs' ↔ z ∈ hs) :
    Embeds f (hs.foldl Links.init m) (hs'.foldl Links.init m') := by
  intro z
  by_cases hz : z ∈ hs
  · obtain ⟨-, hnext, hprev⟩ := ring_foldl_init (m := m) (.inl hz)
    obtain ⟨-, hnext', hprev'⟩ := ring_foldl_init (m := m') (.inl ((hhs z).2 hz))
    rw [hnext, hprev, hnext', hprev']
    exact ⟨rfl, rfl⟩
  · obtain ⟨hnext, hprev⟩ := foldl_init_other (m := m) hz
    obtain ⟨hnext', hprev'⟩ := foldl_init_other (m := m') fun hz' => hz ((hhs z).1 hz')
    rw [hnext, hprev, hnext', hprev']
    exact h z

theorem Embeds.addTail (hf : Injective f) (h : Embeds f m m') (x a : α) :
    Embeds f (m.addTail x a) (m'.addTail (f x) (f a)) := by
  intro z
  rw [Links.addTail, Links.addTail, (h a).2]
  constructor
  · exact update_embeds hf (update_embeds hf (fun z => (h z).1) x a) (m.prev a) x z
  · exact update_embeds hf (update_embeds hf (fun z => (h z).2) a x) x (m.prev a) z

theorem Embeds.del (hf : Injective f) (h : Embeds f m m') (x p p' : α) :
    Embeds f (m.del x p p') (m'.del (f x) (f p) (f p')) := by
  intro z
  unfold Links.del
  rw [(h x).1, (h x).2]
  constructor
  · exact update_embeds hf (update_embeds hf (fun z => (h z).1) (m.prev x) (m.next x)) x p z
  · exact update_embeds hf (update_embeds hf (fun z => (h z).2) (m.next x) (m.prev x)) x p' z

end

end SpringOs.Lib.LinkedList
