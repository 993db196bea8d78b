import SpringOs.Lib.Machine
import Mathlib.Logic.Function.Basic

/-!
Several processors over one memory, with exclusive loads and stores. An exclusive load
reserves its address for the processor; a store by another processor to that address takes
the reservation away, and an exclusive store takes place only while the reservation is held.
It may also fail for no reason, as the architecture allows. Accesses take effect one after
the other, in the order of each processor's program.

A machine whose every access is one atomic update (`atomicStep`) is the specification.

* `LocalSim`: what one processor's code has to satisfy, without a word about the others;
* `LocalSim.step`: then every step is one update of the atomic machine, or none;
* **`LocalSim.runs`**: and every run, in any interleaving, is a run of the atomic machine.
-/

namespace SpringOs.Lib.Exclusive
open Machine
open Function (update update_self update_of_ne update_eq_self)

variable {C A V L M : Type} [DecidableEq C] [DecidableEq A]

/-! ## The machine -/

/-- What a processor does next. An exclusive store is told whether it took place. -/
inductive Head (A V L : Type)
  | tau (l : L)
  | load (a : A) (k : V → L)
  | store (a : A) (v : V) (l : L)
  | loadEx (a : A) (k : V → L)
  | storeEx (a : A) (v : V) (k : Bool → L)

/-- `mon` is the address each processor has reserved. -/
structure State (C A V L : Type) where
  mem : A → V
  mon : C → Option A
  loc : C → L

/-- The reservations after a store of `c` to `a`; its own it keeps if `own`. -/
def lose (mon : C → Option A) (a : A) (c : C) (own : Bool) (d : C) : Option A :=
  if mon d = some a ∧ ¬ (d = c ∧ own = true) then none else mon d

/-- One access, or one step without an access, of processor `e.1`. Where the machine has a
choice, `e.2` makes it: whether an exclusive store with a reservation takes place, and whether
a plain store keeps the processor's own reservation. -/
def step (next : L → Option (Head A V L)) (s : State C A V L) (e : C × Bool) :
    Option (State C A V L) :=
  match next (s.loc e.1) with
  | none => none
  | some (.tau l) => some { s with loc := update s.loc e.1 l }
  | some (.load a k) => some { s with loc := update s.loc e.1 (k (s.mem a)) }
  | some (.store a v l) =>
    some ⟨update s.mem a v, lose s.mon a e.1 e.2, update s.loc e.1 l⟩
  | some (.loadEx a k) =>
    some ⟨s.mem, update s.mon e.1 (some a), update s.loc e.1 (k (s.mem a))⟩
  | some (.storeEx a v k) =>
    if s.mon e.1 = some a ∧ e.2 = true then
      some ⟨update s.mem a v, lose s.mon a e.1 false, update s.loc e.1 (k true)⟩
    else some ⟨s.mem, update s.mon e.1 none, update s.loc e.1 (k false)⟩

/-! ## The specification -/

/-- One atomic update: the address, and the new value and local state for the value there. -/
abbrev Update (A V M : Type) := A × (V → V × M)

structure AtomicState (C A V M : Type) where
  mem : A → V
  loc : C → M

def atomicStep (next : M → Option (Update A V M)) (s : AtomicState C A V M) (c : C) :
    Option (AtomicState C A V M) :=
  (next (s.loc c)).map fun u =>
    ⟨update s.mem u.1 (u.2 (s.mem u.1)).1,
      update s.loc c (u.2 (s.mem u.1)).2⟩

/-- The state after the update `u` of `c`. -/
def AtomicState.after (s : AtomicState C A V M) (c : C) (u : Update A V M) :
    AtomicState C A V M :=
  ⟨update s.mem u.1 (u.2 (s.mem u.1)).1, update s.loc c (u.2 (s.mem u.1)).2⟩

abbrev AtomicRun (next : M → Option (Update A V M)) :
    AtomicState C A V M → AtomicState C A V M → Prop :=
  Steps (atomicStep next) fun _ _ => True

theorem atomicStep_after {next : M → Option (Update A V M)} {t : AtomicState C A V M} {c : C}
    {u : Update A V M} (hu : next (t.loc c) = some u) :
    atomicStep next t c = some (t.after c u) := by
  rw [atomicStep, hu]
  rfl

/-! ## Simulation -/

/-- What the specification, in state `m`, allows the code to do next. `R` relates their states,
and `r` is the address and value of the last exclusive load. An exclusive load takes effect at
once or leaves the update to the exclusive store. -/
def Allowed (spec : M → Option (Update A V M)) (R : Option (A × V) → L → M → Prop)
    (r : Option (A × V)) (m : M) : Head A V L → Prop
  | .tau l => R r l m
  | .load a k => ∃ f, spec m = some (a, f) ∧ ∀ v, (f v).1 = v ∧ R r (k v) (f v).2
  | .store a w l => ∃ f, spec m = some (a, f) ∧ ∀ v, (f v).1 = w ∧ ∀ r', R r' l (f v).2
  | .loadEx a k => ∀ v, R (some (a, v)) (k v) m ∨
      ∃ f, spec m = some (a, f) ∧ (f v).1 = v ∧ R (some (a, v)) (k v) (f v).2
  | .storeEx a w k => R none (k false) m ∧
      ∀ v, r = some (a, v) → ∃ f, spec m = some (a, f) ∧ (f v).1 = w ∧ R none (k true) (f v).2

/-- The code of one processor does only what its specification allows. -/
structure LocalSim (next : L → Option (Head A V L)) (spec : M → Option (Update A V M))
    (R : Option (A × V) → L → M → Prop) : Prop where
  allowed : ∀ {r l m h}, R r l m → next l = some h → Allowed spec R r m h

section
variable {next : L → Option (Head A V L)} {spec : M → Option (Update A V M)}
  {R : Option (A × V) → L → M → Prop}

/-- A reservation that is held was made by the last exclusive load, and the value is still
there. -/
def Reserved (s : State C A V L) (r : C → Option (A × V)) : Prop :=
  ∀ c a, s.mon c = some a → r c = some (a, s.mem a)

/-- The two machines have the same memory, and related processors. -/
structure Matches (R : Option (A × V) → L → M → Prop) (s : State C A V L)
    (t : AtomicState C A V M) (r : C → Option (A × V)) : Prop where
  mem : t.mem = s.mem
  reserved : Reserved s r
  loc : ∀ c, R (r c) (s.loc c) (t.loc c)

theorem lose_eq_some {mon : C → Option A} {a b : A} {c d : C} {own : Bool}
    (h : lose mon a c own d = some b) : mon d = some b ∧ (d = c ∨ b ≠ a) := by
  unfold lose at h
  split at h
  · cases h
  · rename_i hkept
    refine ⟨h, ?_⟩
    by_cases hd : d = c
    · exact .inl hd
    · refine .inr ?_
      rintro rfl
      exact hkept ⟨h, fun hc => hd hc.1⟩

variable {s : State C A V L} {t : AtomicState C A V M} {r : C → Option (A × V)} {c : C}

/-- Other processors' reservations survive a store only where it changed nothing. -/
theorem Reserved.store (h : Reserved s r) (a : A) (v : V) (own : Bool) (l : L)
    {r' : Option (A × V)}
    (hc : ∀ b, lose s.mon a c own c = some b → r' = some (b, update s.mem a v b)) :
    Reserved ⟨update s.mem a v, lose s.mon a c own, update s.loc c l⟩
      (update r c r') := by
  intro d b hb
  obtain ⟨hmon, hd | hne⟩ := lose_eq_some hb
  · subst hd
    rw [update_self]
    exact hc b hb
  · by_cases hd : d = c
    · subst hd
      rw [update_self]
      exact hc b hb
    · rw [update_of_ne hd, h d b hmon]
      exact congrArg _ (congrArg _ (update_of_ne hne ..).symm)

omit [DecidableEq A] in
theorem Reserved.own (h : Reserved s r) (mon : Option A) (l : L) {r' : Option (A × V)}
    (hc : ∀ b, mon = some b → r' = some (b, s.mem b)) :
    Reserved ⟨s.mem, update s.mon c mon, update s.loc c l⟩
      (update r c r') := by
  intro d b hb
  change update s.mon c mon d = some b at hb
  by_cases hd : d = c
  · subst hd
    rw [update_self] at hb ⊢
    exact hc b hb
  · rw [update_of_ne hd] at hb ⊢
    exact h d b hb

omit [DecidableEq A] in
theorem loc_update (h : ∀ d, R (r d) (s.loc d) (t.loc d)) {r' : Option (A × V)} {l : L} {m : M}
    (hc : R r' l m) (d : C) :
    R (update r c r' d) (update s.loc c l d) (update t.loc c m d) := by
  by_cases hd : d = c
  · subst hd
    simpa only [update_self] using hc
  · simpa only [update_of_ne hd] using h d

omit [DecidableEq A] in
theorem Matches.stutter (h : Matches R s t r) {mon : Option A} {l : L} {r' : Option (A × V)}
    (hmon : ∀ b, mon = some b → r' = some (b, s.mem b)) (hR : R r' l (t.loc c)) :
    Matches R ⟨s.mem, update s.mon c mon, update s.loc c l⟩ t
      (update r c r') := by
  refine ⟨h.mem, h.reserved.own mon l hmon, fun d => ?_⟩
  simpa only [update_eq_self] using loc_update (c := c) (t := t) h.loc hR d

theorem Matches.update (h : Matches R s t r) {u : Update A V M} {s' : State C A V L} {l : L}
    {g : Option (A × V)} (hmem : s'.mem = update s.mem u.1 (u.2 (s.mem u.1)).1)
    (hloc : s'.loc = update s.loc c l)
    (hres : Reserved s' (update r c g)) (hR : R g l (u.2 (s.mem u.1)).2) :
    Matches R s' (t.after c u) (update r c g) := by
  refine ⟨?_, hres, fun d => ?_⟩
  · rw [hmem, ← h.mem]
    rfl
  · rw [hloc]
    change R _ _ (Function.update t.loc c (u.2 (t.mem u.1)).2 d)
    rw [h.mem]
    exact loc_update h.loc hR d

/-- Every step is followed by the specification with one update or none. -/
theorem LocalSim.step (hsim : LocalSim next spec R) (h : Matches R s t r) {e : C × Bool}
    {s' : State C A V L} (hs : step next s e = some s') :
    ∃ t' r', (t' = t ∨ atomicStep spec t e.1 = some t') ∧ Matches R s' t' r' := by
  obtain ⟨c, choice⟩ := e
  have hR := h.loc c
  have hsame : ∀ l, ({ s with loc := update s.loc c l } : State C A V L) =
      ⟨s.mem, update s.mon c (s.mon c), update s.loc c l⟩ := fun l => by
    rw [update_eq_self]
  unfold Exclusive.step at hs
  split at hs
  · cases hs
  · rename_i l hl
    cases hs
    rw [hsame]
    exact ⟨t, _, .inl rfl, h.stutter (h.reserved c) (hsim.allowed hR hl)⟩
  · rename_i a k hl
    cases hs
    obtain ⟨f, hf, hk⟩ := hsim.allowed hR hl
    refine ⟨_, _, .inr (atomicStep_after hf), h.update (u := (a, f)) ?_ rfl ?_ (hk (s.mem a)).2⟩
    · rw [(hk (s.mem a)).1, update_eq_self]
    · rw [hsame]
      exact h.reserved.own _ _ (h.reserved c)
  · rename_i a w l hl
    cases hs
    obtain ⟨f, hf, hk⟩ := hsim.allowed hR hl
    let g := (lose s.mon a c choice c).map fun b => (b, update s.mem a w b)
    refine ⟨_, _, .inr (atomicStep_after hf), h.update (u := (a, f)) (g := g) ?_ rfl ?_
      ((hk (s.mem a)).2 g)⟩
    · rw [(hk (s.mem a)).1]
    · refine h.reserved.store a w choice l fun b hb => ?_
      change (lose s.mon a c choice c).map _ = _
      rw [hb]
      rfl
  · rename_i a k hl
    cases hs
    have hmon : ∀ b, some a = some b → some (a, s.mem a) = some (b, s.mem b) := by
      rintro b ⟨⟩
      rfl
    rcases hsim.allowed hR hl (s.mem a) with hk | ⟨f, hf, hv, hk⟩
    · exact ⟨t, _, .inl rfl, h.stutter hmon hk⟩
    · refine ⟨_, _, .inr (atomicStep_after hf), h.update (u := (a, f)) ?_ rfl ?_ hk⟩
      · rw [hv, update_eq_self]
      · exact h.reserved.own _ _ hmon
  · rename_i a w k hl
    obtain ⟨hfail, hstore⟩ := hsim.allowed hR hl
    split at hs
    · rename_i htaken
      cases hs
      obtain ⟨f, hf, hv, hk⟩ := hstore _ (h.reserved c a htaken.1)
      refine ⟨_, _, .inr (atomicStep_after hf), h.update (u := (a, f)) ?_ rfl ?_ hk⟩
      · rw [hv]
      · refine h.reserved.store a w false (k true) fun b hb => ?_
        obtain ⟨hmon, hd⟩ := lose_eq_some hb
        cases htaken.1.symm.trans hmon
        simp [lose, hmon] at hb
    · cases hs
      exact ⟨t, _, .inl rfl, h.stutter (by rintro b ⟨⟩) hfail⟩

/-- **Every run is a run of the atomic machine**, with the same memory and related
processors. What may be said of an update from the states around it goes over to that run. -/
theorem LocalSim.runs (hsim : LocalSim next spec R) {s s' : State C A V L}
    {ok : State C A V L → C × Bool → Prop} {ok' : AtomicState C A V M → C → Prop}
    (hok : ∀ s e s' t t' r', ok s e → Exclusive.step next s e = some s' →
      atomicStep spec t e.1 = some t' → Matches R s' t' r' → ok' t e.1)
    (hrun : Steps (Exclusive.step next) ok s s') {t : AtomicState C A V M} (h : Matches R s t r) :
    ∃ t' r', Steps (atomicStep spec) ok' t t' ∧ Matches R s' t' r' := by
  induction hrun with
  | refl => exact ⟨t, r, .refl, h⟩
  | tail e _ he hs ih =>
    obtain ⟨t', r', hrun', h'⟩ := ih
    obtain ⟨t'', r'', rfl | hstep, h''⟩ := hsim.step h' hs
    · exact ⟨_, r'', hrun', h''⟩
    · exact ⟨t'', r'', hrun'.tail e.1 (hok _ _ _ _ _ _ he hs hstep h'') hstep, h''⟩

end

end SpringOs.Lib.Exclusive
