import SpringOs.Lib.Arm
import SpringOs.Lib.Exclusive

/-!
Routines with an exclusive load and an exclusive store, called by arbitrary programs on
several processors.

A client issues operations one after the other. Each is a plain access or a routine, run
instruction by instruction between those of the other processors. `Loop` says that a routine
repeats an exclusive load and store until the store takes place, and which update that is.

* `Follows.finishes`: a processor that is left alone finishes its call;
* **`runs_within`**, `runs`: whatever the clients, every interleaving of the instructions is a run
  in which each operation is one atomic update.
-/

namespace SpringOs.Lib.ArmExclusive
open Arm Exclusive Machine
open Function (update update_self update_idem update_eq_self)

/-! ## Routines and clients -/

structure Routine where
  code : List Instr
  entry : Core
  result : Core → Word

inductive Impl
  | load (a : Word)
  | store (a v : Word)
  | routine (r : Routine)

structure Call (K : Type) where
  caller : K
  cont : Word → K

inductive Local (K : Type)
  | client (k : K)
  | busy (r : Routine) (pc : Nat) (act : Action (Core × Next)) (call : Call K)

/-- The client of a processor; inside a call, the one that made it. -/
def Local.caller {K : Type} : Local K → K
  | .client k => k
  | .busy _ _ _ call => call.caller

variable {C K Op : Type} [DecidableEq C]

def Routine.enter (r : Routine) (pc : Nat) (s : Core) (call : Call K) : Local K :=
  match r.code[pc]? with
  | none => .client (call.cont (r.result s))
  | some i => .busy r pc (exec i s) call

def Routine.after (r : Routine) (pc : Nat) (p : Core × Next) (call : Call K) : Local K :=
  match p.2 with
  | .next => r.enter (pc + 1) p.1 call
  | .goto l => r.enter l p.1 call
  | .ret => .client (call.cont (r.result p.1))

def Routine.resume (r : Routine) (pc : Nat) (act : Action (Core × Next)) (call : Call K) :
    Local K :=
  match act with
  | .done p => r.after pc p call
  | act => .busy r pc act call

def low (v : Word) : Word := (v.setWidth 32).setWidth 64

/-- The exclusive accesses have 32 bits. Routines make no plain access. -/
def issue (impl : Op → Impl) (cmd : K → Option (Op × (Word → K))) :
    Local K → Option (Head Word Word (Local K))
  | .client k => (cmd k).map fun p =>
    match impl p.1 with
    | .load a => .load a fun v => .client (p.2 v)
    | .store a v => .store a v (.client (p.2 0))
    | .routine r => .tau (r.enter 0 r.entry ⟨k, p.2⟩)
  | .busy r pc act call =>
    match act with
    | .done p => some (.tau (r.after pc p call))
    | .loadEx a k => some (.loadEx a fun v => r.resume pc (k (low v)) call)
    | .storeEx a v k => some (.storeEx a (low v) fun stored => r.resume pc (k stored) call)
    | .load .. => none
    | .store .. => none

/-- The address of an operation, and for the value there the new value and the result. -/
abbrev Spec := Word × (Word → Word × Word)

def atomic (spec : Op → Spec) (cmd : K → Option (Op × (Word → K))) (k : K) :
    Option (Update Word Word K) :=
  (cmd k).map fun p => ((spec p.1).1, fun v => (((spec p.1).2 v).1, p.2 ((spec p.1).2 v).2))

/-! ## Routines that retry -/

/-- From here the routine makes no access up to a place where `P` holds, or up to its end
with a result in `Q`. -/
inductive Quiet (r : Routine) (P : Nat → Core → Prop) (Q : Word → Prop) : Nat → Core → Prop
  | here {pc : Nat} {s : Core} (h : P pc s) : Quiet r P Q pc s
  | next {pc : Nat} {s s' : Core} {i : Instr} (hi : r.code[pc]? = some i)
      (hx : exec i s = .done (s', .next)) (h : Quiet r P Q (pc + 1) s') : Quiet r P Q pc s
  | goto {pc l : Nat} {s s' : Core} {i : Instr} (hi : r.code[pc]? = some i)
      (hx : exec i s = .done (s', .goto l)) (h : Quiet r P Q l s') : Quiet r P Q pc s
  | ret {pc : Nat} {s s' : Core} {i : Instr} (hi : r.code[pc]? = some i)
      (hx : exec i s = .done (s', .ret)) (h : Q (r.result s')) : Quiet r P Q pc s
  | fin {pc : Nat} {s : Core} (hi : r.code[pc]? = none) (h : Q (r.result s)) : Quiet r P Q pc s

def At (pc : Nat) (I : Core → Prop) (pc' : Nat) (s : Core) : Prop := pc' = pc ∧ I s

def Never {α β : Type} (_ : α) (_ : β) : Prop := False

/-- The routine comes to the exclusive load at `head` with `I`, and from there to the exclusive
store at `tail`, or to its end if the operation changes nothing. -/
structure Loop (r : Routine) (spec : Spec) (head tail : Nat) (I : Core → Prop)
    (J : Word → Core → Prop) : Prop where
  entry : Quiet r (At head I) (Never ()) 0 r.entry
  ldxr : ∃ t n, r.code[head]? = some (.ldxr t n) ∧ ∀ s, I s → s.get n = spec.1 ∧
    ∀ v, Quiet r (At tail (J v)) (fun w => w = (spec.2 v).2 ∧ (spec.2 v).1 = v) (head + 1)
      (s.set t (low v))
  stxr : ∀ v s, J v s → ∃ d t n, r.code[tail]? = some (.stxr d t n) ∧ s.get n = spec.1 ∧
    low (s.get t) = (spec.2 v).1 ∧
    Quiet r (At head I) (Never ()) (tail + 1) (s.set d 1) ∧
    Quiet r Never (· = (spec.2 v).2) (tail + 1) (s.set d 0)

inductive Implements : Impl → Spec → Prop
  | load (a : Word) : Implements (.load a) (a, fun v => (v, v))
  | store (a w : Word) : Implements (.store a w) (a, fun _ => (w, 0))
  | routine {r : Routine} {spec : Spec} {head tail : Nat} {I : Core → Prop}
      {J : Word → Core → Prop} (h : Loop r spec head tail I J) : Implements (.routine r) spec

/-! ## Simulation -/

section
variable {r : Routine} {P : Nat → Core → Prop} {Q : Word → Prop} {pc : Nat} {s : Core}

theorem Quiet.cases (h : Quiet r P Q pc s) : Quiet r P (Never ()) pc s ∨ Quiet r Never Q pc s := by
  induction h with
  | here h => exact .inl (.here h)
  | next hi hx _ ih => exact ih.imp (.next hi hx) (.next hi hx)
  | goto hi hx _ ih => exact ih.imp (.goto hi hx) (.goto hi hx)
  | ret hi hx h => exact .inr (.ret hi hx h)
  | fin hi h => exact .inr (.fin hi h)

theorem Quiet.mono {Q' : Word → Prop} (h : Quiet r P Q pc s) (hQ : ∀ w, Q w → Q' w) :
    Quiet r P Q' pc s := by
  induction h with
  | here h => exact .here h
  | next hi hx _ ih => exact .next hi hx ih
  | goto hi hx _ ih => exact .goto hi hx ih
  | ret hi hx h => exact .ret hi hx (hQ _ h)
  | fin hi h => exact .fin hi (hQ _ h)

theorem Quiet.branch {i : Instr} {t : Bool} {l : Nat} (hi : r.code[pc]? = some i)
    (hx : exec i s = Arm.branch s t l) (htaken : t = true → Quiet r P Q l s)
    (hnext : t = false → Quiet r P Q (pc + 1) s) : Quiet r P Q pc s := by
  cases t with
  | true => exact .goto hi hx (htaken rfl)
  | false => exact .next hi hx (hnext rfl)

theorem Quiet.exists_result (h : Quiet r Never Q pc s) : ∃ w, Q w := by
  induction h with
  | here h => exact h.elim
  | next _ _ _ ih => exact ih
  | goto _ _ _ ih => exact ih
  | ret _ _ h => exact ⟨_, h⟩
  | fin _ h => exact ⟨_, h⟩

variable {impl : Op → Impl} {cmd : K → Option (Op × (Word → K))} {call : Call K}

theorem Quiet.next_eq (h : Quiet r P Q pc s) :
    P pc s ∨ (∃ w, Q w ∧ r.enter pc s call = .client (call.cont w)) ∨
      ∃ l, issue impl cmd (r.enter pc s call) = some (.tau l) ∧
        ((∃ pc' s', l = r.enter pc' s' call ∧ Quiet r P Q pc' s') ∨
          ∃ w, Q w ∧ l = .client (call.cont w)) := by
  cases h with
  | here h => exact .inl h
  | next hi hx h | goto hi hx h =>
    refine .inr (.inr ⟨_, ?_, .inl ⟨_, _, rfl, h⟩⟩)
    simp only [Routine.enter, hi, hx, issue, Routine.after]
  | ret hi hx h =>
    refine .inr (.inr ⟨_, ?_, .inr ⟨_, h, rfl⟩⟩)
    simp only [Routine.enter, hi, hx, issue, Routine.after]
  | fin hi h =>
    refine .inr (.inl ⟨_, h, ?_⟩)
    simp only [Routine.enter, hi]

end

/-- How a processor and its client over atomic operations go together: before the call's update
`m` is still the client that made it, afterwards it is the one that has the result. -/
inductive Follows (impl : Op → Impl) (spec : Op → Spec) (cmd : K → Option (Op × (Word → K))) :
    Option (Word × Word) → Local K → K → Prop
  | client {g : Option (Word × Word)} {m : K} : Follows impl spec cmd g (.client m) m
  | waiting {g : Option (Word × Word)} {m : K} {o : Op} {cont : Word → K} {r : Routine}
      {head tail : Nat} {I : Core → Prop} {J : Word → Core → Prop} {pc : Nat} {s : Core}
      (hcmd : cmd m = some (o, cont)) (hr : impl o = .routine r)
      (hloop : Loop r (spec o) head tail I J) (hq : Quiet r (At head I) (Never ()) pc s) :
      Follows impl spec cmd g (r.enter pc s ⟨m, cont⟩) m
  | loaded {m : K} {o : Op} {cont : Word → K} {r : Routine} {head tail : Nat} {I : Core → Prop}
      {J : Word → Core → Prop} {pc : Nat} {s : Core} {v : Word} (hcmd : cmd m = some (o, cont))
      (hr : impl o = .routine r) (hloop : Loop r (spec o) head tail I J)
      (hq : Quiet r (At tail (J v)) (Never ()) pc s) :
      Follows impl spec cmd (some ((spec o).1, v)) (r.enter pc s ⟨m, cont⟩) m
  | made {g : Option (Word × Word)} {k m : K} {o : Op} {cont : Word → K} {r : Routine} {pc : Nat}
      {s : Core} (hcmd : cmd k = some (o, cont)) (hr : impl o = .routine r)
      (hq : Quiet r Never (fun w => cont w = m) pc s) :
      Follows impl spec cmd g (r.enter pc s ⟨k, cont⟩) m

section
variable {impl : Op → Impl} {spec : Op → Spec} {cmd : K → Option (Op × (Word → K))} {m : K} {o : Op}
  {cont : Word → K}

theorem issue_client {h : Head Word Word (Local K)} (hn : issue impl cmd (.client m) = some h) :
    ∃ o cont, cmd m = some (o, cont) ∧
      ((∃ a, impl o = .load a ∧ h = .load a fun v => .client (cont v)) ∨
        (∃ a w, impl o = .store a w ∧ h = .store a w (.client (cont 0))) ∨
        ∃ r, impl o = .routine r ∧ h = .tau (r.enter 0 r.entry ⟨m, cont⟩)) := by
  obtain ⟨⟨o, cont⟩, hcmd, rfl⟩ := Option.map_eq_some_iff.1 hn
  refine ⟨o, cont, hcmd, ?_⟩
  cases himpl : impl o with
  | load a => exact .inl ⟨a, rfl, rfl⟩
  | store a w => exact .inr (.inl ⟨a, w, rfl, rfl⟩)
  | routine r => exact .inr (.inr ⟨r, rfl, rfl⟩)

theorem atomic_eq (hcmd : cmd m = some (o, cont)) :
    atomic spec cmd m =
      some ((spec o).1, fun v => (((spec o).2 v).1, cont ((spec o).2 v).2)) := by
  rw [atomic, hcmd]
  rfl

theorem atomicStep_eq {s s' : AtomicState C Word Word K} {c : C}
    (hcmd : cmd (s.loc c) = some (o, cont)) (hs : atomicStep (atomic spec cmd) s c = some s') :
    s' = ⟨update s.mem (spec o).1 ((spec o).2 (s.mem (spec o).1)).1,
      update s.loc c (cont ((spec o).2 (s.mem (spec o).1)).2)⟩ := by
  rw [atomicStep, atomic_eq hcmd] at hs
  cases hs
  rfl

variable {r : Routine} {sp : Spec} {head tail : Nat} {I : Core → Prop} {J : Word → Core → Prop}
  {s : Core} {call : Call K}

variable (impl cmd call) in
theorem Loop.issue_head (h : Loop r sp head tail I J) (hI : I s) :
    ∃ k, issue impl cmd (r.enter head s call) = some (.loadEx sp.1 k) ∧ ∀ v, ∃ s',
      k v = r.enter (head + 1) s' call ∧
      Quiet r (At tail (J v)) (fun w => w = (sp.2 v).2 ∧ (sp.2 v).1 = v) (head + 1) s' := by
  obtain ⟨t, n, hi, hload⟩ := h.ldxr
  obtain ⟨ha, hq⟩ := hload s hI
  refine ⟨fun v => r.enter (head + 1) (s.set t (low v)) call, ?_, fun v => ⟨_, rfl, hq v⟩⟩
  rw [Routine.enter, hi, ← ha]
  rfl

variable (impl cmd call) in
theorem Loop.issue_tail (h : Loop r sp head tail I J) {v : Word} (hJ : J v s) :
    ∃ k s₁ s₀, issue impl cmd (r.enter tail s call) = some (.storeEx sp.1 (sp.2 v).1 k) ∧
      k false = r.enter (tail + 1) s₁ call ∧ Quiet r (At head I) (Never ()) (tail + 1) s₁ ∧
      k true = r.enter (tail + 1) s₀ call ∧ Quiet r Never (· = (sp.2 v).2) (tail + 1) s₀ := by
  obtain ⟨d, t, n, hi, ha, hw, hfail, hdone⟩ := h.stxr v s hJ
  refine ⟨fun stored => r.enter (tail + 1) (s.set d (if stored then 0 else 1)) call, s.set d 1,
    s.set d 0, ?_, rfl, hfail, rfl, hdone⟩
  rw [Routine.enter, hi, ← ha, ← hw]
  rfl

theorem client_allowed (himpl : ∀ o, Implements (impl o) (spec o)) {g : Option (Word × Word)}
    {m : K} {h : Head Word Word (Local K)} (hn : issue impl cmd (.client m) = some h) :
    Allowed (atomic spec cmd) (Follows impl spec cmd) g m h := by
  obtain ⟨o, cont, hcmd, hload | hstore | hroutine⟩ := issue_client hn
  · obtain ⟨a, ho, rfl⟩ := hload
    have hs := himpl o
    rw [ho] at hs
    generalize hsp : spec o = sp at hs
    cases hs with
    | load => exact ⟨_, by rw [atomic_eq hcmd, hsp], fun v => ⟨rfl, .client⟩⟩
  · obtain ⟨a, w, ho, rfl⟩ := hstore
    have hs := himpl o
    rw [ho] at hs
    generalize hsp : spec o = sp at hs
    cases hs with
    | store => exact ⟨_, by rw [atomic_eq hcmd, hsp], fun v => ⟨rfl, fun _ => .client⟩⟩
  · obtain ⟨r, ho, rfl⟩ := hroutine
    have hs := himpl o
    rw [ho] at hs
    cases hs with
    | routine hloop => exact .waiting hcmd ho hloop hloop.entry

/-- **One processor.** Its routines do what the atomic operations allow. -/
theorem localSim (himpl : ∀ o, Implements (impl o) (spec o)) :
    LocalSim (issue impl cmd) (atomic spec cmd) (Follows impl spec cmd) where
  allowed {g l m h} hR hn := by
    cases hR with
    | client => exact client_allowed himpl hn
    | waiting hcmd hr hloop hq =>
      rcases hq.next_eq with ⟨rfl, hI⟩ | ⟨w, hw, -⟩ | ⟨l', hl', hnext⟩
      · -- The exclusive load: the call's update is made here if it will change nothing.
        obtain ⟨k, hk, hload⟩ := hloop.issue_head impl cmd _ hI
        cases hk.symm.trans hn
        intro v
        obtain ⟨s', hs', hq'⟩ := hload v
        rw [hs']
        rcases hq'.cases with hstore | hend
        · exact .inl (.loaded hcmd hr hloop hstore)
        · obtain ⟨w, -, hv⟩ := hend.exists_result
          exact .inr ⟨_, atomic_eq hcmd, hv, .made hcmd hr (hend.mono fun w hw => by rw [hw.1])⟩
      · exact hw.elim
      · cases hl'.symm.trans hn
        rcases hnext with ⟨pc', s', rfl, hq'⟩ | ⟨w, hw, -⟩
        · exact .waiting hcmd hr hloop hq'
        · exact hw.elim
    | loaded hcmd hr hloop hq =>
      rcases hq.next_eq with ⟨rfl, hJ⟩ | ⟨w, hw, -⟩ | ⟨l', hl', hnext⟩
      · obtain ⟨k, s₁, s₀, hk, h₁, hq₁, h₀, hq₀⟩ := hloop.issue_tail impl cmd _ hJ
        cases hk.symm.trans hn
        refine ⟨h₁ ▸ .waiting hcmd hr hloop hq₁, ?_⟩
        rintro v ⟨⟩
        exact ⟨_, atomic_eq hcmd, rfl, h₀ ▸ .made hcmd hr (hq₀.mono fun w hw => by rw [hw])⟩
      · exact hw.elim
      · cases hl'.symm.trans hn
        rcases hnext with ⟨pc', s', rfl, hq'⟩ | ⟨w, hw, -⟩
        · exact .loaded hcmd hr hloop hq'
        · exact hw.elim
    | made hcmd hr hq =>
      rcases hq.next_eq with hnever | ⟨w, rfl, hl⟩ | ⟨l', hl', hnext⟩
      · exact hnever.elim
      · rw [hl] at hn
        exact client_allowed himpl hn
      · cases hl'.symm.trans hn
        rcases hnext with ⟨pc', s', rfl, hq'⟩ | ⟨w, rfl, rfl⟩
        · exact .made hcmd hr hq'
        · exact .client

/-- The client on atomic operations is where this processor is: in the same client, or at the
call the processor is in, with its update made or not. -/
def Sees (impl : Op → Impl) (cmd : K → Option (Op × (Word → K))) (l : Local K) (m : K) : Prop :=
  l = .client m ∨ ∃ o r pc act call, l = .busy r pc act call ∧
    cmd call.caller = some (o, call.cont) ∧ impl o = .routine r ∧
    (m = call.caller ∨ ∃ w, m = call.cont w)

variable (s call) in
theorem enter_busy {pc : Nat} {i : Instr} (hi : r.code[pc]? = some i) :
    r.enter pc s call = .busy r pc (exec i s) call := by
  rw [Routine.enter, hi]

variable (call) in
theorem Quiet.ended {P : Nat → Core → Prop} {Q : Word → Prop} {pc : Nat} (h : Quiet r P Q pc s)
    (hP : P pc s → ∃ i, r.code[pc]? = some i) :
    (∃ i, r.code[pc]? = some i) ∨ ∃ w, Q w ∧ r.enter pc s call = .client (call.cont w) := by
  cases h with
  | here h => exact .inl (hP h)
  | next hi => exact .inl ⟨_, hi⟩
  | goto hi => exact .inl ⟨_, hi⟩
  | ret hi => exact .inl ⟨_, hi⟩
  | fin hi h =>
    refine .inr ⟨_, h, ?_⟩
    rw [Routine.enter, hi]

theorem Follows.sees {g : Option (Word × Word)} {l : Local K} {m : K}
    (h : Follows impl spec cmd g l m) : Sees impl cmd l m := by
  cases h with
  | client => exact .inl rfl
  | @waiting _ _ o cont r _ _ _ _ _ u hcmd hr hloop hq =>
    obtain ⟨t, n, hi, -⟩ := hloop.ldxr
    obtain ⟨i, hi⟩ | ⟨w, hw, -⟩ := hq.ended ⟨m, cont⟩ fun h => ⟨_, h.1 ▸ hi⟩
    · exact .inr ⟨o, r, _, _, ⟨m, cont⟩, enter_busy u _ hi, hcmd, hr, .inl rfl⟩
    · exact hw.elim
  | @loaded _ o cont r _ _ _ _ _ u _ hcmd hr hloop hq =>
    obtain ⟨i, hi⟩ | ⟨w, hw, -⟩ := hq.ended ⟨m, cont⟩ fun h => by
      obtain ⟨d, t, n, hi, -⟩ := hloop.stxr _ _ h.2
      exact ⟨_, h.1 ▸ hi⟩
    · exact .inr ⟨o, r, _, _, ⟨m, cont⟩, enter_busy u _ hi, hcmd, hr, .inl rfl⟩
    · exact hw.elim
  | @made _ k _ o cont r _ u hcmd hr hq =>
    obtain ⟨w, hw⟩ := hq.exists_result
    obtain ⟨i, hi⟩ | ⟨w', hw', hl⟩ := hq.ended ⟨k, cont⟩ fun h => h.elim
    · exact .inr ⟨o, r, _, _, ⟨k, cont⟩, enter_busy u _ hi, hcmd, hr, .inr ⟨w, hw.symm⟩⟩
    · exact .inl (hl.trans (congrArg _ hw'))

end

/-! ## A processor that is left alone -/

section
variable {impl : Op → Impl} {spec : Op → Spec} {cmd : K → Option (Op × (Word → K))} {c : C}
  {s t : State C Word Word (Local K)}

/-- Steps of `c` only, with every exclusive store taking place that may. -/
abbrev Alone (impl : Op → Impl) (cmd : K → Option (Op × (Word → K))) (c : C) :
    State C Word Word (Local K) → State C Word Word (Local K) → Prop :=
  Steps (step (issue impl cmd)) fun _ e => e = (c, true)

theorem Alone.one (h : step (issue impl cmd) s (c, true) = some t) : Alone impl cmd c s t :=
  Steps.refl.tail (c, true) rfl h

variable {r : Routine} {call : Call K}

theorem Alone.quiet {i : Instr} {p : Core × Next} {pc : Nat} {u : Core}
    (hs : s.loc c = r.enter pc u call) (hi : r.code[pc]? = some i) (hx : exec i u = .done p) :
    Alone impl cmd c s { s with loc := update s.loc c (r.after pc p call) } := by
  refine .one ?_
  rw [step, hs, Routine.enter, hi]
  simp only [hx, issue]

variable {Q : Word → Prop} {pc : Nat} {u : Core}

variable (impl cmd) in
theorem Quiet.alone {P : Nat → Core → Prop} (h : Quiet r P Q pc u)
    (hs : s.loc c = r.enter pc u call) :
    ∃ l, Alone impl cmd c s { s with loc := update s.loc c l } ∧
      ((∃ pc' u', l = r.enter pc' u' call ∧ P pc' u') ∨ ∃ w, Q w ∧ l = .client (call.cont w)) := by
  induction h generalizing s with
  | here h =>
    refine ⟨s.loc c, ?_, .inl ⟨_, _, hs, h⟩⟩
    rw [update_eq_self]
    exact .refl
  | next hi hx _ ih | goto hi hx _ ih =>
    obtain ⟨l, hl, hend⟩ := ih (s := { s with loc := update s.loc c _ })
      (update_self ..)
    rw [update_idem] at hl
    exact ⟨l, (Alone.quiet hs hi hx).trans hl, hend⟩
  | ret hi hx h => exact ⟨_, Alone.quiet hs hi hx, .inr ⟨_, h, rfl⟩⟩
  | fin hi h =>
    refine ⟨s.loc c, ?_, .inr ⟨_, h, ?_⟩⟩
    · rw [update_eq_self]
      exact .refl
    · rw [hs, Routine.enter, hi]

def Finishes (impl : Op → Impl) (cmd : K → Option (Op × (Word → K))) (c : C)
    (s : State C Word Word (Local K)) : Prop :=
  ∃ t k, Alone impl cmd c s t ∧ t.loc c = .client k

theorem Finishes.head (h : Alone impl cmd c s t) (ht : Finishes impl cmd c t) :
    Finishes impl cmd c s := by
  obtain ⟨u, k, hu, hk⟩ := ht
  exact ⟨u, k, h.trans hu, hk⟩

theorem Quiet.finishes (h : Quiet r Never Q pc u) (hs : s.loc c = r.enter pc u call) :
    Finishes impl cmd c s := by
  obtain ⟨l, hl, ⟨_, _, _, hnever⟩ | ⟨w, _, rfl⟩⟩ := h.alone impl cmd hs
  · exact hnever.elim
  · exact ⟨_, _, hl, update_self ..⟩

variable {sp : Spec} {head tail : Nat} {I : Core → Prop} {J : Word → Core → Prop} {v : Word}
  {ok : State C Word Word (Local K) → C × Bool → Prop} {mem : Word → Word} {start : C → K}

theorem Loop.finishes_reserved (h : Loop r sp head tail I J)
    (hq : Quiet r (At tail (J v)) Q pc u) (hs : s.loc c = r.enter pc u call)
    (hmon : s.mon c = some sp.1) : Finishes impl cmd c s := by
  obtain ⟨l, hl, ⟨pc', u', rfl, rfl, hJ⟩ | ⟨w, -, rfl⟩⟩ := hq.alone impl cmd hs
  · obtain ⟨k, s₁, s₀, hk, -, -, h₀, hq₀⟩ := h.issue_tail impl cmd call hJ
    have hstep : step (issue impl cmd)
        { s with loc := update s.loc c (r.enter pc' u' call) } (c, true) =
        some ⟨update s.mem sp.1 (sp.2 v).1, lose s.mon sp.1 c false,
          update s.loc c (k true)⟩ := by
      simp only [step, update_self, hk, hmon, and_self, if_true, update_idem]
    exact .head hl (.head (.one hstep) (hq₀.finishes ((update_self ..).trans h₀)))
  · exact ⟨_, _, hl, update_self ..⟩

theorem Loop.finishes (h : Loop r sp head tail I J) (hq : Quiet r (At head I) (Never ()) pc u)
    (hs : s.loc c = r.enter pc u call) : Finishes impl cmd c s := by
  obtain ⟨l, hl, ⟨pc', u', rfl, rfl, hI⟩ | ⟨w, hw, -⟩⟩ := hq.alone impl cmd hs
  · obtain ⟨k, hk, hload⟩ := h.issue_head impl cmd call hI
    obtain ⟨s', hs', hq'⟩ := hload (s.mem sp.1)
    have hstep : step (issue impl cmd)
        { s with loc := update s.loc c (r.enter pc' u' call) } (c, true) =
        some ⟨s.mem, update s.mon c (some sp.1),
          update s.loc c (k (s.mem sp.1))⟩ := by
      simp only [step, update_self, hk, update_idem]
    exact .head hl (.head (.one hstep) (h.finishes_reserved hq'
      ((update_self ..).trans hs') (update_self ..)))
  · exact hw.elim

theorem Loop.finishes_lost (h : Loop r sp head tail I J)
    (hq : Quiet r (At tail (J v)) (Never ()) pc u) (hs : s.loc c = r.enter pc u call)
    (hmon : s.mon c ≠ some sp.1) : Finishes impl cmd c s := by
  obtain ⟨l, hl, ⟨pc', u', rfl, rfl, hJ⟩ | ⟨w, hw, -⟩⟩ := hq.alone impl cmd hs
  · obtain ⟨k, s₁, s₀, hk, h₁, hq₁, -, -⟩ := h.issue_tail impl cmd call hJ
    have hstep : step (issue impl cmd)
        { s with loc := update s.loc c (r.enter pc' u' call) } (c, true) =
        some ⟨s.mem, update s.mon c none, update s.loc c (k false)⟩ := by
      simp only [step, update_self, hk, hmon, false_and, if_false, update_idem]
    exact .head hl (.head (.one hstep) (h.finishes hq₁ ((update_self ..).trans h₁)))
  · exact hw.elim

/-- **A processor that is left alone finishes its call**, wherever in the call it is. -/
theorem Follows.finishes {g : Option (Word × Word)} {m : K}
    (h : Follows impl spec cmd g (s.loc c) m) : Finishes impl cmd c s := by
  generalize hl : s.loc c = l at h
  cases h with
  | client => exact ⟨s, _, .refl, hl⟩
  | waiting _ _ hloop hq => exact hloop.finishes hq hl
  | @loaded _ o _ _ _ _ _ _ _ _ _ _ _ hloop hq =>
    by_cases hmon : s.mon c = some (spec o).1
    · exact hloop.finishes_reserved hq hl hmon
    · exact hloop.finishes_lost hq hl hmon
  | made hcmd hr hq => exact hq.finishes hl

/-- **All processors.** Every interleaving of the instructions is a run of the clients over
atomic operations, with the same memory, which every processor sees. At any point a processor
that is left alone comes back to its client. What may be said of an update from what the
processors see after it goes over to the run. -/
theorem runs_within (himpl : ∀ o, Implements (impl o) (spec o))
    {ok' : AtomicState C Word Word K → C → Prop}
    (hok : ∀ s e s' t t', ok s e → step (issue impl cmd) s e = some s' →
      atomicStep (atomic spec cmd) t e.1 = some t' →
      (∀ c, Sees impl cmd (s'.loc c) (t'.loc c)) → ok' t e.1) {s : State C Word Word (Local K)}
    (hrun : Steps (step (issue impl cmd)) ok ⟨mem, fun _ => none, fun c => .client (start c)⟩ s) :
    ∃ t : AtomicState C Word Word K, Steps (atomicStep (atomic spec cmd)) ok' ⟨mem, start⟩ t ∧
      t.mem = s.mem ∧ (∀ c, Sees impl cmd (s.loc c) (t.loc c)) ∧
      ∀ c, Finishes impl cmd c s := by
  have hstart : Matches (Follows impl spec cmd)
      (⟨mem, fun _ => none, fun c => .client (start c)⟩ : State C Word Word (Local K))
      ⟨mem, start⟩ fun _ => none :=
    { mem := rfl
      reserved := by
        intro _ _ h
        cases h
      loc := fun _ => .client }
  obtain ⟨t, g, htrun, hmatch⟩ := (localSim himpl).runs
    (fun s e s' t t' _ he hs ht h => hok s e s' t t' he hs ht fun c => (h.loc c).sees) hrun hstart
  exact ⟨t, htrun, hmatch.mem, fun c => (hmatch.loc c).sees,
    fun c => (hmatch.loc c).finishes⟩

/-- The same for runs of which nothing more is said. -/
theorem runs (himpl : ∀ o, Implements (impl o) (spec o)) {s : State C Word Word (Local K)}
    (hrun : Steps (step (issue impl cmd)) ok ⟨mem, fun _ => none, fun c => .client (start c)⟩ s) :
    ∃ t : AtomicState C Word Word K, AtomicRun (atomic spec cmd) ⟨mem, start⟩ t ∧
      t.mem = s.mem ∧ (∀ c, Sees impl cmd (s.loc c) (t.loc c)) ∧
      ∀ c, Finishes impl cmd c s :=
  runs_within himpl (fun _ _ _ _ _ _ _ _ _ => trivial) hrun

end

end SpringOs.Lib.ArmExclusive
