import SpringOs.Atomic

/-!
`acquire` and `release` of `spinlock.c` on several CPUs that share locks.

Every CPU makes some calls, in an order of its own. Each access to a lock is a step, and
`atomic_cmpxchg` runs instruction by instruction, so that other CPUs come in between the two
reads of `holding`, between the exchange and the write of `lock->cpu`, and so on.

* `LockInv`: what a lock's two fields say about who owns it, at every moment;
* `Inv.step`: every access keeps it;
* **`spinlock_exclusive`**: two CPUs never have a lock at once, `acquire` panics only on a lock
  its own CPU has, and `release` only on one its CPU does not have.
-/

namespace SpringOs.SpinlockRuns
open Lib.Arm Lib.Exclusive Lib.ArmExclusive Lib.Machine Atomic
open Function (update update_self update_of_ne update_eq_self Injective)

/-! ## The calls -/

inductive Call
  | acquire (lock : Word)
  | release (lock : Word)

/-- Where a CPU is: after the first read of `holding` (`checking`, `confirming`), in the loop of
`acquire` (`trying`), before it writes `lock->cpu` (`signing`), before `release` clears it
(`clearing`) and before it clears `lock->locked` (`opening`). -/
inductive Phase
  | idle
  | checking (lock : Word)
  | trying (lock : Word)
  | signing (lock : Word)
  | confirming (lock : Word)
  | clearing (lock : Word)
  | opening (lock : Word)
  | panicked (call : Call)

/-- `self` is `cur_cpu()`. `held` is history: the locks `acquire` has returned with and `release`
has not opened yet. -/
structure Cpu where
  self : Word
  todo : List Call
  phase : Phase
  held : Word → Bool

/-- `&lock->locked` and `&lock->cpu`. -/
def locked (lock : Word) : Word := lock
def owner (lock : Word) : Word := lock + 16

/-- `acquire` and `release` up to their next access. -/
def access (k : Cpu) : Option (Op × (Word → Cpu)) :=
  match k.phase with
  | .idle =>
    match k.todo with
    | [] => none
    | .acquire l :: rest => some (.load (locked l), fun v =>
      { k with todo := rest, phase := if narrow v ≠ 0 then .checking l else .trying l })
    | .release l :: rest => some (.load (locked l), fun v =>
      { k with
        todo := rest
        phase := if narrow v ≠ 0 then .confirming l else .panicked (.release l) })
  | .checking l => some (.load (owner l), fun v =>
    { k with phase := if v = k.self then .panicked (.acquire l) else .trying l })
  | .trying l => some (.atomicCmpxchg (locked l) 0 1, fun old =>
    { k with phase := if narrow old ≠ 0 then .trying l else .signing l })
  | .signing l => some (.store (owner l) k.self, fun _ =>
    { k with phase := .idle, held := update k.held l true })
  | .confirming l => some (.load (owner l), fun v =>
    { k with phase := if v = k.self then .clearing l else .panicked (.release l) })
  | .clearing l => some (.store (owner l) 0, fun _ => { k with phase := .opening l })
  | .opening l => some (.atomicSet (locked l) 0, fun _ =>
    { k with phase := .idle, held := update k.held l false })
  | .panicked _ => none

/-! ## The invariant -/

variable {C : Type}

/-- The exchange of `acquire` has taken place, and that of `release` has not. -/
def Owns (k : Cpu) (l : Word) : Prop := k.held l = true ∨ k.phase = .signing l

/-- An owner that has not written `lock->cpu` yet, or has cleared it. -/
def Unsigned (k : Cpu) (l : Word) : Prop := k.phase = .signing l ∨ k.phase = .opening l

/-- What the two fields of a lock say. -/
structure LockInv (s : AtomicState C Word Word Cpu) (l : Word) : Prop where
  one : ∀ c d, Owns (s.loc c) l → Owns (s.loc d) l → c = d
  taken : ∀ c, Owns (s.loc c) l → s.mem (locked l) = wide 1
  free : (∀ c, ¬ Owns (s.loc c) l) → s.mem (locked l) = wide 0 ∧ s.mem (owner l) = 0
  unsigned : ∀ c, Owns (s.loc c) l → Unsigned (s.loc c) l → s.mem (owner l) = 0
  signed : ∀ c, Owns (s.loc c) l → ¬ Unsigned (s.loc c) l → s.mem (owner l) = (s.loc c).self

/-- Which locks a CPU has in each phase. -/
def PhaseInv (k : Cpu) : Prop :=
  match k.phase with
  | .trying l | .signing l | .panicked (.release l) => k.held l = false
  | .clearing l | .opening l | .panicked (.acquire l) => k.held l = true
  | _ => True

def Call.lock : Call → Word
  | .acquire l | .release l => l

def Phase.lock : Phase → Option Word
  | .idle => none
  | .checking l | .trying l | .signing l | .confirming l | .clearing l | .opening l => some l
  | .panicked call => some call.lock

/-- `cur` are the CPUs, `locks` the locks their calls are about. -/
structure CpuInv (cur : C → Word) (locks : Word → Prop) (c : C) (k : Cpu) : Prop where
  self : k.self = cur c
  phase : PhaseInv k
  todo : ∀ call ∈ k.todo, locks call.lock
  lock : ∀ l, k.phase.lock = some l → locks l

/-- Distinct CPUs, none at the null pointer, and locks that do not overlap. -/
structure Layout (cur : C → Word) (locks : Word → Prop) : Prop where
  cpus : Injective cur
  nonnull : ∀ c, cur c ≠ 0
  apart : ∀ l l', locks l → locks l' → locked l ≠ owner l'

structure Inv (cur : C → Word) (locks : Word → Prop) (s : AtomicState C Word Word Cpu) : Prop where
  cpu : ∀ c, CpuInv cur locks c (s.loc c)
  lock : ∀ l, locks l → LockInv s l

variable {cur : C → Word} {locks : Word → Prop} {s s' : AtomicState C Word Word Cpu} {c : C}
  {l : Word}

/-! ## Steps -/

theorem LockInv.frame (h : LockInv s l) (hlocked : s'.mem (locked l) = s.mem (locked l))
    (howner : s'.mem (owner l) = s.mem (owner l))
    (hloc : ∀ c, (s'.loc c).self = (s.loc c).self ∧ (Owns (s'.loc c) l ↔ Owns (s.loc c) l) ∧
      (Unsigned (s'.loc c) l ↔ Unsigned (s.loc c) l)) : LockInv s' l where
  one c d hc hd := h.one c d ((hloc c).2.1.1 hc) ((hloc d).2.1.1 hd)
  taken c hc := hlocked.trans (h.taken c ((hloc c).2.1.1 hc))
  free hfree := by
    rw [hlocked, howner]
    exact h.free fun c hc => hfree c ((hloc c).2.1.2 hc)
  unsigned c hc hu := howner.trans (h.unsigned c ((hloc c).2.1.1 hc) ((hloc c).2.2.1 hu))
  signed c hc hu := by
    rw [howner, (hloc c).1]
    exact h.signed c ((hloc c).2.1.1 hc) fun hu' => hu ((hloc c).2.2.2 hu')

theorem LockInv.nobody (hnone : ∀ d, ¬ Owns (s.loc d) l)
    (hlocked : s.mem (locked l) = wide 0) (howner : s.mem (owner l) = 0) : LockInv s l where
  one c _ hc _ := absurd hc (hnone c)
  taken c hc := absurd hc (hnone c)
  free _ := ⟨hlocked, howner⟩
  unsigned _ _ _ := howner
  signed c hc _ := absurd hc (hnone c)

/-- `lock->cpu` names a CPU only if that CPU owns the lock. -/
theorem LockInv.self_iff (h : LockInv s l) (hlay : Layout cur locks)
    (hcpu : ∀ c, (s.loc c).self = cur c) (hp : ¬ Unsigned (s.loc c) l) :
    s.mem (owner l) = (s.loc c).self ↔ (s.loc c).held l = true := by
  have hown : Owns (s.loc c) l ↔ (s.loc c).held l = true :=
    ⟨fun h => h.resolve_right fun hs => hp (.inl hs), .inl⟩
  rw [← hown]
  refine ⟨fun heq => ?_, fun hc => h.signed c hc hp⟩
  rw [hcpu] at heq
  by_cases hfree : ∀ d, ¬ Owns (s.loc d) l
  · exact absurd ((h.free hfree).2.symm.trans heq).symm (hlay.nonnull c)
  · obtain ⟨d, hd⟩ := not_forall_not.1 hfree
    by_cases hu : Unsigned (s.loc d) l
    · exact absurd ((h.unsigned d hd hu).symm.trans heq).symm (hlay.nonnull c)
    · have hdc := (h.signed d hd hu).symm.trans heq
      rw [hcpu] at hdc
      exact hlay.cpus hdc ▸ hd

theorem LockInv.held_ne (h : LockInv s l) (hh : (s.loc c).held l = true) :
    narrow (s.mem (locked l)) ≠ 0 := by
  rw [h.taken c (.inl hh)]
  decide

def start (cur : C → Word) (todo : C → List Call) (c : C) : Cpu :=
  ⟨cur c, todo c, .idle, fun _ => false⟩

theorem Inv.start {mem : Word → Word} {todo : C → List Call}
    (htodo : ∀ c, ∀ call ∈ todo c, locks call.lock)
    (hmem : ∀ l, locks l → mem (locked l) = 0 ∧ mem (owner l) = 0) :
    Inv cur locks ⟨mem, start cur todo⟩ where
  cpu c := ⟨rfl, trivial, htodo c, fun _ hl => by cases hl⟩
  lock l hl := .nobody (fun c hc => by simp [Owns, SpinlockRuns.start] at hc) (hmem l hl).1
    (hmem l hl).2

/-- No lock is unsigned in this phase. -/
def Phase.quiet : Phase → Bool
  | .signing _ | .opening _ => false
  | _ => true

/-- What one access does to the memory and to its CPU. -/
inductive Moves (mem : Word → Word) (k : Cpu) : (Word → Word) → Cpu → Prop
  | read {k' : Cpu} (hself : k'.self = k.self) (hheld : k'.held = k.held)
      (hk : k.phase.quiet = true) (hk' : k'.phase.quiet = true) : Moves mem k mem k'
  | take {l : Word} (hp : k.phase = .trying l) (hfree : narrow (mem (locked l)) = 0) :
      Moves mem k (update mem (locked l) (wide 1)) { k with phase := .signing l }
  | sign {l : Word} (hp : k.phase = .signing l) :
      Moves mem k (update mem (owner l) k.self)
        { k with phase := .idle, held := update k.held l true }
  | clear {l : Word} (hp : k.phase = .clearing l) :
      Moves mem k (update mem (owner l) 0) { k with phase := .opening l }
  | opened {l : Word} (hp : k.phase = .opening l) :
      Moves mem k (update mem (locked l) (wide 0))
        { k with phase := .idle, held := update k.held l false }

/-- The second read of `holding` tells whether this CPU has the lock. -/
theorem Inv.checked (h : Inv cur locks s) (hlay : Layout cur locks) {l : Word}
    (hp : (s.loc c).phase = .checking l ∨ (s.loc c).phase = .confirming l) :
    s.mem (owner l) = (s.loc c).self ↔ (s.loc c).held l = true := by
  have hl : (s.loc c).phase.lock = some l := by rcases hp with hp | hp <;> rw [hp] <;> rfl
  refine (h.lock l ((h.cpu c).lock l hl)).self_iff hlay (fun d => (h.cpu d).self) ?_
  rcases hp with hp | hp <;> simp [Unsigned, hp]

theorem CpuInv.goes {k : Cpu} (hk : CpuInv cur locks c k) {p : Phase} {held : Word → Bool}
    (hlock : ∀ l, p.lock = some l → k.phase.lock = some l)
    (hp : PhaseInv { k with phase := p, held := held }) :
    CpuInv cur locks c { k with phase := p, held := held } where
  self := hk.self
  phase := hp
  todo := hk.todo
  lock l hl := hk.lock l (hlock l hl)

theorem CpuInv.begins {k : Cpu} (hk : CpuInv cur locks c k) {call : Call} {rest : List Call}
    (htodo : k.todo = call :: rest) {p : Phase} (hlock : p.lock = some call.lock)
    (hp : PhaseInv { k with todo := rest, phase := p }) :
    CpuInv cur locks c { k with todo := rest, phase := p } where
  self := hk.self
  phase := hp
  todo call' h' := hk.todo call' (htodo ▸ List.mem_cons_of_mem _ h')
  lock l hl := by
    cases hlock.symm.trans hl
    exact hk.todo call (htodo ▸ List.mem_cons_self)

variable [DecidableEq C]

theorem step_load {p : Word} {cont : Word → Cpu} (ho : access (s.loc c) = some (.load p, cont))
    (hs : atomicStep (atomic spec access) s c = some s') :
    s' = ⟨s.mem, update s.loc c (cont (s.mem p))⟩ := by
  rw [atomicStep_eq ho hs]
  exact congrArg (AtomicState.mk · _) (update_eq_self ..)

theorem step_moves (hlay : Layout cur locks) (h : Inv cur locks s)
    (hs : atomicStep (atomic spec access) s c = some s') :
    ∃ mem k, s' = ⟨mem, update s.loc c k⟩ ∧ Moves s.mem (s.loc c) mem k ∧
      CpuInv cur locks c k := by
  have hk := h.cpu c
  have hph := hk.phase
  cases hp : (s.loc c).phase with
  | idle =>
    cases htodo : (s.loc c).todo with
    | nil => simp [atomicStep, atomic, access, hp, htodo] at hs
    | cons call rest =>
      have hlock : locks call.lock := hk.todo call (by simp [htodo])
      have hfree : narrow (s.mem (locked call.lock)) = 0 → (s.loc c).held call.lock = false :=
        fun hz => Bool.eq_false_iff.2 fun hh => (h.lock _ hlock).held_ne hh hz
      cases call with
      | acquire l | release l =>
        refine ⟨_, _, step_load (by simp only [access, hp, htodo]; rfl) hs,
          .read rfl rfl (by rw [hp]; rfl) ?_, ?_⟩
        · dsimp only
          split <;> rfl
        · by_cases hz : narrow (s.mem (locked l)) = 0
          · simp only [hz, ne_eq, not_true_eq_false, if_false]
            exact hk.begins htodo rfl (hfree hz)
          · simp only [hz, ne_eq, not_false_eq_true, if_true]
            exact hk.begins htodo rfl trivial
  | checking l | confirming l =>
    have hiff := h.checked (c := c) (l := l) hlay (by simp [hp])
    refine ⟨_, _, step_load (by simp only [access, hp]; rfl) hs,
      .read rfl rfl (by rw [hp]; rfl) ?_, hk.goes (fun l' hl' => ?_) ?_⟩
    · dsimp only
      split <;> rfl
    · rw [hp]
      split at hl' <;> exact hl'
    · split
      · rename_i hself
        exact hiff.1 hself
      · rename_i hself
        exact Bool.eq_false_iff.2 fun hh => hself (hiff.2 hh)
  | trying l =>
    have hnot : (s.loc c).held l = false := by simpa only [PhaseInv, hp] using hph
    have hs' := atomicStep_eq (by simp only [access, hp]; rfl) hs
    by_cases hz : narrow (s.mem (locked l)) = 0
    · refine ⟨_, _, ?_, .take hp hz, hk.goes (fun l' hl' => ?_) hnot⟩
      · simpa only [spec, hz, if_true, narrow_wide, ne_eq, not_true_eq_false, if_false] using hs'
      · rw [hp]
        exact hl'
    · refine ⟨s.mem, { s.loc c with phase := .trying l }, ?_, .read rfl rfl ?_ rfl,
        hk.goes (fun l' hl' => ?_) hnot⟩
      · simpa only [spec, hz, if_false, narrow_wide, ne_eq, not_false_eq_true, if_true,
          update_eq_self] using hs'
      · rw [hp]
        rfl
      · rw [hp]
        exact hl'
  | signing l =>
    refine ⟨_, _, atomicStep_eq (by simp only [access, hp]; rfl) hs, .sign hp,
      hk.goes (fun l' hl' => ?_) ?_⟩
    · cases hl'
    · trivial
  | clearing l =>
    have hheld : (s.loc c).held l = true := by simpa only [PhaseInv, hp] using hph
    refine ⟨_, _, atomicStep_eq (by simp only [access, hp]; rfl) hs, .clear hp,
      hk.goes (fun l' hl' => ?_) ?_⟩
    · rw [hp]
      exact hl'
    · exact hheld
  | opening l =>
    refine ⟨_, _, atomicStep_eq (by simp only [access, hp]; rfl) hs, .opened hp,
      hk.goes (fun l' hl' => ?_) ?_⟩
    · cases hl'
    · trivial
  | panicked call => simp [atomicStep, atomic, access, hp] at hs

/-! ### The locks after a step -/

theorem owner_inj {l l' : Word} : owner l = owner l' ↔ l = l' := BitVec.add_left_inj 16

section
variable {mem : Word → Word} {k : Cpu}

theorem LockInv.other (h : LockInv s l) (hlocked : mem (locked l) = s.mem (locked l))
    (howner : mem (owner l) = s.mem (owner l)) (hself : k.self = (s.loc c).self)
    (hown : Owns k l ↔ Owns (s.loc c) l) (hun : Unsigned k l ↔ Unsigned (s.loc c) l) :
    LockInv ⟨mem, update s.loc c k⟩ l := by
  refine h.frame hlocked howner fun d => ?_
  by_cases hd : d = c
  · subst hd
    simp only [update_self]
    exact ⟨hself, hown, hun⟩
  · simp [update_of_ne hd]

theorem LockInv.mine (hother : ∀ d, d ≠ c → ¬ Owns (s.loc d) l) (hown : Owns k l)
    (htaken : mem (locked l) = wide 1) (hun : Unsigned k l → mem (owner l) = 0)
    (hsigned : ¬ Unsigned k l → mem (owner l) = k.self) :
    LockInv ⟨mem, update s.loc c k⟩ l := by
  have honly : ∀ d, Owns (update s.loc c k d) l → d = c := fun d hd => by
    by_contra hne
    rw [update_of_ne hne] at hd
    exact hother d hne hd
  refine ⟨fun d e hd he => (honly d hd).trans (honly e he).symm, fun _ _ => htaken,
    fun hfree => absurd hown ?_, fun d hd hu => ?_, fun d hd hu => ?_⟩
  · simpa only [update_self] using hfree c
  · obtain rfl := honly d hd
    exact hun (by simpa only [update_self] using hu)
  · obtain rfl := honly d hd
    simp only [update_self] at hu ⊢
    exact hsigned hu

theorem owns_quiet (hk : k.phase.quiet = true) : Owns k l ↔ k.held l = true := by
  refine ⟨fun h => h.resolve_right fun hs => ?_, .inl⟩
  rw [hs] at hk
  cases hk

theorem not_unsigned_quiet (hk : k.phase.quiet = true) : ¬ Unsigned k l := by
  rintro (h | h) <;> rw [h] at hk <;> cases hk

/-- The lock an access is about, and all others. -/
theorem Moves.lock (hm : Moves s.mem (s.loc c) mem k) (hlay : Layout cur locks)
    (h : Inv cur locks s) (hl : locks l) : LockInv ⟨mem, update s.loc c k⟩ l := by
  have hlock := h.lock l hl
  cases hm with
  | read hself hheld hq hq' =>
    refine hlock.other rfl rfl hself ?_ ?_
    · rw [owns_quiet hq, owns_quiet hq', hheld]
    · exact iff_of_false (not_unsigned_quiet hq') (not_unsigned_quiet hq)
  | @take l' hp hfree =>
    have hl' : locks l' := (h.cpu c).lock l' (by rw [hp]; rfl)
    by_cases heq : l = l'
    · subst heq
      have hnone : ∀ d, ¬ Owns (s.loc d) l := fun d hd => by
        rw [hlock.taken d hd] at hfree
        exact absurd hfree (by decide)
      refine .mine (fun d _ => hnone d) (.inr rfl) (update_self ..) (fun _ => ?_)
        fun hu => absurd (.inl rfl) hu
      rw [update_of_ne (hlay.apart l l hl hl).symm]
      exact (hlock.free hnone).2
    · refine hlock.other (update_of_ne heq ..)
        (update_of_ne (hlay.apart l' l hl' hl).symm ..) rfl ?_ ?_
      · simp [Owns, hp, Ne.symm heq]
      · simp [Unsigned, hp, Ne.symm heq]
  | @sign l' hp =>
    have hl' : locks l' := (h.cpu c).lock l' (by rw [hp]; rfl)
    by_cases heq : l = l'
    · subst heq
      refine .mine (fun d hd hd' => hd (hlock.one d c hd' (.inr hp)))
        (.inl (update_self ..)) ?_ ?_ fun _ => update_self ..
      · rw [update_of_ne (hlay.apart l l hl hl)]
        exact hlock.taken c (.inr hp)
      · simp [Unsigned]
    · refine hlock.other (update_of_ne (hlay.apart l l' hl hl') ..)
        (update_of_ne (fun h => heq (owner_inj.1 h)) ..) rfl ?_ ?_
      · simp [Owns, hp, Ne.symm heq, update_of_ne heq]
      · simp [Unsigned, hp, Ne.symm heq]
  | @clear l' hp =>
    have hl' : locks l' := (h.cpu c).lock l' (by rw [hp]; rfl)
    have hheld : (s.loc c).held l' = true := by simpa only [PhaseInv, hp] using (h.cpu c).phase
    by_cases heq : l = l'
    · subst heq
      refine .mine (fun d hd hd' => hd (hlock.one d c hd' (.inl hheld))) (.inl hheld) ?_
        (fun _ => update_self ..) fun hu => absurd (.inr rfl) hu
      rw [update_of_ne (hlay.apart l l hl hl)]
      exact hlock.taken c (.inl hheld)
    · refine hlock.other (update_of_ne (hlay.apart l l' hl hl') ..)
        (update_of_ne (fun h => heq (owner_inj.1 h)) ..) rfl ?_ ?_
      · simp [Owns, hp]
      · simp [Unsigned, hp, Ne.symm heq]
  | @opened l' hp =>
    have hl' : locks l' := (h.cpu c).lock l' (by rw [hp]; rfl)
    have hheld : (s.loc c).held l' = true := by simpa only [PhaseInv, hp] using (h.cpu c).phase
    by_cases heq : l = l'
    · subst heq
      refine .nobody (fun d hd => ?_) (update_self ..) ?_
      · by_cases hdc : d = c
        · subst hdc
          simp [Owns] at hd
        · simp only [update_of_ne hdc] at hd
          exact hdc (hlock.one d c hd (.inl hheld))
      · simp only [update_of_ne (hlay.apart l l hl hl).symm]
        exact hlock.unsigned c (.inl hheld) (.inr hp)
    · refine hlock.other (update_of_ne heq ..)
        (update_of_ne (hlay.apart l' l hl' hl).symm ..) rfl ?_ ?_
      · simp [Owns, hp, update_of_ne heq]
      · simp [Unsigned, hp, Ne.symm heq]

/-- **Every access keeps the invariant.** -/
theorem Inv.step (hlay : Layout cur locks) (h : Inv cur locks s)
    (hs : atomicStep (atomic spec access) s c = some s') : Inv cur locks s' := by
  obtain ⟨mem, k, rfl, hm, hk⟩ := step_moves hlay h hs
  refine ⟨fun d => ?_, fun l hl => hm.lock hlay h hl⟩
  by_cases hd : d = c
  · subst hd
    simpa only [update_self] using hk
  · simpa only [update_of_ne hd] using h.cpu d

end

/-! ## Runs -/

/-- Inside a routine a CPU is in the loop of `acquire`, and has the same locks after the
exchange. -/
theorem access_routine {regs : Core} {k : Cpu} {o : Op} {r : Routine} {cont : Word → Cpu}
    (ho : access k = some (o, cont)) (hr : impl regs o = .routine r) :
    (∃ l, k.phase = .trying l) ∧ ∀ w, (cont w).held = k.held := by
  unfold access at ho
  split at ho
  case h_1 =>
    split at ho <;> cases ho <;> cases hr
  case h_3 l hp =>
    cases ho
    exact ⟨⟨l, hp⟩, fun _ => rfl⟩
  all_goals cases ho <;> cases hr

/-- What a CPU has and whether it has panicked is the same with atomic calls. -/
theorem sees_cpu {regs : Core} {l : Local Cpu} {m : Cpu} (h : Sees (impl regs) access l m) :
    m.held = l.caller.held ∧ ∀ call, l.caller.phase = .panicked call → m = l.caller := by
  rcases h with rfl | ⟨o, r, pc, act, call, rfl, ho, hr, hm⟩
  · exact ⟨rfl, fun _ _ => rfl⟩
  · obtain ⟨⟨l', hp⟩, hheld⟩ := access_routine ho hr
    refine ⟨?_, fun call hcall => by cases hp.symm.trans hcall⟩
    rcases hm with rfl | ⟨w, rfl⟩
    · rfl
    · exact hheld w

/-- **Mutual exclusion.** CPUs that make any calls of `acquire` and `release`, in any interleaving
of their instructions, never have a lock at the same time; a lock that reads as free is had by
none. `acquire` panics only where its CPU has the lock, and `release` only where its CPU does not
have it. -/
theorem spinlock_exclusive (regs : Core) (hlay : Layout cur locks) {mem : Word → Word}
    {todo : C → List Call} (htodo : ∀ c, ∀ call ∈ todo c, locks call.lock)
    (hmem : ∀ l, locks l → mem (locked l) = 0 ∧ mem (owner l) = 0)
    {s : State C Word Word (Local Cpu)} (hrun : Run regs access (boot mem (start cur todo)) s) :
    (∀ c d l, locks l → (s.loc c).caller.held l = true → (s.loc d).caller.held l = true → c = d) ∧
    (∀ c l, locks l → narrow (s.mem (locked l)) = 0 → (s.loc c).caller.held l = false) ∧
    (∀ c l, (s.loc c).caller.phase = .panicked (.acquire l) → (s.loc c).caller.held l = true) ∧
    (∀ c l, (s.loc c).caller.phase = .panicked (.release l) → (s.loc c).caller.held l = false) := by
  obtain ⟨t, htrun, htmem, hsees, -⟩ := runs (implements regs) hrun
  have hinv : Inv cur locks t := htrun.invariant (Inv.start htodo hmem)
    fun u c v hu _ hs => hu.step hlay hs
  have hheld : ∀ c l, (s.loc c).caller.held l = (t.loc c).held l := fun c l =>
    (congrFun (sees_cpu (hsees c)).1 l).symm
  have hpanic : ∀ c call, (s.loc c).caller.phase = .panicked call →
      (t.loc c).phase = .panicked call := fun c call hp => by
    rw [(sees_cpu (hsees c)).2 call hp, hp]
  refine ⟨fun c d l hl hc hd => ?_, fun c l hl hz => ?_, fun c l hp => ?_, fun c l hp => ?_⟩
  · rw [hheld] at hc hd
    exact (hinv.lock l hl).one c d (.inl hc) (.inl hd)
  · rw [hheld, Bool.eq_false_iff]
    rw [← htmem] at hz
    exact fun hh => (hinv.lock l hl).held_ne hh hz
  · rw [hheld]
    simpa only [PhaseInv, hpanic c _ hp] using (hinv.cpu c).phase
  · rw [hheld]
    simpa only [PhaseInv, hpanic c _ hp] using (hinv.cpu c).phase

def twoCpus (c : Bool) : Word := if c then 512 else 256

theorem twoCpus_layout : Layout twoCpus (· = 4096) where
  cpus := by
    intro c d
    revert c d
    decide
  nonnull := by decide
  apart := by
    rintro l l' rfl rfl
    decide

/-- One CPU takes the lock while the other one is at its exclusive store, and then takes the lock
again. -/
theorem spinlock_exclusive_two :
    ∃ s : State Bool Word Word (Local Cpu),
      Run someCore access (boot (fun _ => 0) (start twoCpus fun c =>
        if c then [.acquire 4096, .acquire 4096] else [.acquire 4096])) s ∧
      (s.loc true).caller.phase = .panicked (.acquire 4096) ∧
      (s.loc true).caller.held 4096 = true ∧ (s.loc false).caller.held 4096 = false := by
  have hrun : ∃ s, run (step (issue (impl someCore) access))
      (boot (fun _ => 0) (start twoCpus fun c =>
        if c then [.acquire 4096, .acquire 4096] else [.acquire 4096]))
      [(false, true), (false, true), (false, true), (false, true), (false, true),
        (true, true), (true, true), (true, true), (true, true), (true, true), (true, true),
        (true, true), (true, true), (false, true), (false, true), (true, true), (true, true)] =
      some s ∧ (s.loc true).caller.phase = .panicked (.acquire 4096) ∧
      s.mem (locked 4096) = 1 := ⟨_, rfl, rfl, rfl⟩
  obtain ⟨s, hs, hp, -⟩ := hrun
  have hsteps := Steps.refl.run (fun _ _ => trivial) hs
  obtain ⟨hone, -, hacq, -⟩ := spinlock_exclusive someCore twoCpus_layout (by decide)
    (by rintro l rfl; exact ⟨rfl, rfl⟩) hsteps
  have htrue := hacq true 4096 hp
  refine ⟨s, hsteps, hp, htrue, Bool.eq_false_iff.2 fun hfalse => ?_⟩
  exact absurd (hone true false 4096 rfl htrue hfalse) (by decide)

end SpringOs.SpinlockRuns
