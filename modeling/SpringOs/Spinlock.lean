import SpringOs.Kernel
import SpringOs.Lib.Machine

/-!
`acquire` and `release` of `spinlock.c` and `cur_proc` of `proc.c`, as far as they change
the interrupt mask of a CPU.

A call is the list of its instructions, so that a result can speak of every moment inside
it. A lock that another CPU holds only delays `acquire`; the locks here are free or held by
this CPU.

* **`Calls`**: properly nested calls, with the instructions they are;
* `run_code`: such calls do not panic, and leave interrupts enabled if there is a call;
* `spinlock_masked_iff`: when interrupts are off under every lock and come back as they were.
-/

namespace SpringOs.Spinlock
open Kernel Lib.Machine
open Function (update update_idem update_eq_self)

/-! ## The instructions -/

inductive Instr
  | irqOff
  | fiqOff
  | irqOn
  | fiqOn
  | lock (l : Nat)
  | unlock (l : Nat)

structure Mask where
  irq : Bool
  fiq : Bool
  held : Nat → Bool

/-- `lock` is the check and the `atomic_cmpxchg` of `acquire`, `unlock` what `release` does
before it enables interrupts. -/
def step (s : Mask) : Instr → Except Fault Mask
  | .irqOff => .ok { s with irq := false }
  | .fiqOff => .ok { s with fiq := false }
  | .irqOn => .ok { s with irq := true }
  | .fiqOn => .ok { s with fiq := true }
  | .lock l =>
    if s.held l then .error (.panic .acquire)
    else .ok { s with held := update s.held l true }
  | .unlock l =>
    if !s.held l then .error (.panic .release)
    else .ok { s with held := update s.held l false }

def cpuIntrOff : List Instr := [.irqOff, .fiqOff]
def cpuIntrOn : List Instr := [.irqOn, .fiqOn]

def acquire (l : Nat) : List Instr := cpuIntrOff ++ [.lock l]
def release (l : Nat) : List Instr := .unlock l :: cpuIntrOn
def curProc : List Instr := cpuIntrOff ++ cpuIntrOn

def run : List Instr → Mask → Except Fault Mask
  | [], s => .ok s
  | i :: is, s => do
    let t ← step s i
    run is t

/-- The states after each instruction, up to a panic. -/
def moments : List Instr → Mask → List Mask
  | [], _ => []
  | i :: is, s =>
    match step s i with
    | .ok t => t :: moments is t
    | .error _ => []

/-! ## Nested calls -/

inductive Calls
  | done
  | curProc (rest : Calls)
  | locked (l : Nat) (body rest : Calls)

def Calls.code : Calls → List Instr
  | .done => []
  | .curProc rest => Spinlock.curProc ++ rest.code
  | .locked l body rest => acquire l ++ (body.code ++ (release l ++ rest.code))

def Calls.Distinct (held : Nat → Bool) : Calls → Prop
  | .done => True
  | .curProc rest => rest.Distinct held
  | .locked l body rest =>
    held l = false ∧ body.Distinct (update held l true) ∧ rest.Distinct held

/-- The states before the outermost `acquire` and after its `release`. -/
def Calls.outermost : Calls → Mask → List (Mask × Mask)
  | .done, _ => []
  | .curProc rest, s =>
    match run Spinlock.curProc s with
    | .ok t => rest.outermost t
    | .error _ => []
  | .locked l body rest, s =>
    match run (acquire l ++ (body.code ++ release l)) s with
    | .ok t => (s, t) :: rest.outermost t
    | .error _ => []

def Calls.Covered (calls : Calls) (s : Mask) : Prop :=
  ∀ t ∈ moments calls.code s, (∃ l, t.held l = true) → t.irq = false ∧ t.fiq = false

/-- After an outermost `release` only those are on that were on before. -/
def Calls.Restores (calls : Calls) (s : Mask) : Prop :=
  ∀ p ∈ calls.outermost s, (p.2.irq = true → p.1.irq = true) ∧ (p.2.fiq = true → p.1.fiq = true)

/-! ## Runs -/

variable {s t : Mask} {is : List Instr} {l : Nat}

theorem run_cons {i : Instr} (h : step s i = .ok t) (is : List Instr) :
    run (i :: is) s = run is t := by
  rw [run, h]
  rfl

theorem run_append {js : List Instr} (h : run is s = .ok t) : run (is ++ js) s = run js t := by
  induction is generalizing s with
  | nil =>
    cases h
    rfl
  | cons i is ih =>
    obtain ⟨u, hu, hrest⟩ := ok_of_bind h
    exact (run_cons hu _).trans (ih hrest)

theorem moments_append {js : List Instr} (h : run is s = .ok t) :
    moments (is ++ js) s = moments is s ++ moments js t := by
  induction is generalizing s with
  | nil =>
    cases h
    rfl
  | cons i is ih =>
    obtain ⟨u, hu, hrest⟩ := ok_of_bind h
    simp only [List.cons_append, moments, hu, ih hrest]

theorem mem_moments (h : run is s = .ok t) : t ∈ moments is s ∨ is = [] := by
  induction is generalizing s with
  | nil => exact .inr rfl
  | cons i is ih =>
    obtain ⟨u, hu, hrest⟩ := ok_of_bind h
    simp only [moments, hu, List.mem_cons]
    rcases ih hrest with hmem | rfl
    · exact .inl (.inr hmem)
    · cases hrest
      exact .inl (.inl rfl)

theorem run_curProc (s : Mask) : run curProc s = .ok ⟨true, true, s.held⟩ := rfl

theorem run_acquire (h : s.held l = false) :
    run (acquire l) s = .ok ⟨false, false, update s.held l true⟩ := by
  have hlock : step ⟨false, false, s.held⟩ (.lock l) =
      .ok ⟨false, false, update s.held l true⟩ := by
    simp [step, h]
  exact (run_cons rfl _).trans ((run_cons rfl _).trans (run_cons hlock _))

theorem run_release (h : s.held l = true) :
    run (release l) s = .ok ⟨true, true, update s.held l false⟩ := by
  have hunlock : step s (.unlock l) = .ok { s with held := update s.held l false } := by
    simp [step, h]
  exact (run_cons hunlock _).trans ((run_cons rfl _).trans (run_cons rfl _))

/-- Nested calls of distinct locks never panic. They leave the locks as they were and, if
there is a call at all, interrupts enabled, whatever the mask was. -/
theorem run_code {calls : Calls} (h : calls.Distinct s.held) :
    ∃ t, run calls.code s = .ok t ∧ t.held = s.held ∧
      (t.irq = true ∧ t.fiq = true ∨ calls = .done ∧ t = s) := by
  induction calls generalizing s with
  | done => exact ⟨s, rfl, rfl, .inr ⟨rfl, rfl⟩⟩
  | curProc rest ih =>
    have hrest : rest.Distinct (Mask.mk true true s.held).held := h
    obtain ⟨t, ht, hheld, hend⟩ := ih hrest
    refine ⟨t, (run_append (run_curProc s)).trans ht, hheld, .inl ?_⟩
    rcases hend with hon | ⟨-, rfl⟩
    · exact hon
    · exact ⟨rfl, rfl⟩
  | locked l body rest ihbody ihrest =>
    obtain ⟨hl, hbody, hrest⟩ := h
    have hbody' : body.Distinct (Mask.mk false false (update s.held l true)).held := hbody
    obtain ⟨u, hu, huheld, -⟩ := ihbody hbody'
    have hul : u.held l = true := by simp [huheld]
    have hback : update u.held l false = s.held := by
      rw [huheld, update_idem, ← hl, update_eq_self]
    have hrest' : rest.Distinct (Mask.mk true true (update u.held l false)).held :=
      hback.symm ▸ hrest
    obtain ⟨t, ht, hheld, hend⟩ := ihrest hrest'
    refine ⟨t, ?_, hheld.trans hback, .inl ?_⟩
    · exact (run_append (run_acquire hl)).trans ((run_append hu).trans
        ((run_append (run_release hul)).trans ht))
    · rcases hend with hon | ⟨-, rfl⟩
      · exact hon
      · exact ⟨rfl, rfl⟩

/-! ## When interrupts are handled well -/

/-- No call is made under a lock. -/
def Calls.Flat : Calls → Prop
  | .done => True
  | .curProc rest => rest.Flat
  | .locked _ body rest => body = .done ∧ rest.Flat

def Calls.startsLocked : Calls → Bool
  | .locked .. => true
  | _ => false

def free : Nat → Bool := fun _ => false

theorem covered_curProc (rest : Calls) (irq fiq : Bool) :
    (Calls.curProc rest).Covered ⟨irq, fiq, free⟩ ↔ rest.Covered ⟨true, true, free⟩ := by
  have hmoments : moments (Calls.curProc rest).code ⟨irq, fiq, free⟩ =
      moments curProc ⟨irq, fiq, free⟩ ++ moments rest.code ⟨true, true, free⟩ :=
    moments_append (run_curProc _)
  unfold Calls.Covered
  rw [hmoments]
  constructor
  · exact fun h t ht => h t (List.mem_append_right _ ht)
  · intro h t ht
    rcases List.mem_append.1 ht with hcall | hrest
    · rintro ⟨l, hl⟩
      have hnone : ∀ u ∈ moments curProc ⟨irq, fiq, free⟩, u.held = free := by
        simp [curProc, cpuIntrOff, cpuIntrOn, moments, step]
      rw [hnone t hcall] at hl
      cases hl
    · exact h t hrest

/-- The first call under a lock leaves interrupts enabled there. -/
theorem covered_locked {body : Calls} (rest : Calls) (irq fiq : Bool)
    (hbody : body.Distinct (update free l true)) :
    (Calls.locked l body rest).Covered ⟨irq, fiq, free⟩ ↔
      body = .done ∧ rest.Covered ⟨true, true, free⟩ := by
  have hbody' : body.Distinct (Mask.mk false false (update free l true)).held := hbody
  obtain ⟨u, hu, huheld, huend⟩ := run_code hbody'
  have hul : u.held l = true := by simp [huheld]
  have hfree : update free l false = free := update_eq_self l free
  have hback : update u.held l false = free := by
    rw [huheld, update_idem, hfree]
  have hrelease := run_release hul
  rw [hback] at hrelease
  have hmoments : moments (Calls.locked l body rest).code ⟨irq, fiq, free⟩ =
      moments (acquire l) ⟨irq, fiq, free⟩ ++
        (moments body.code ⟨false, false, update free l true⟩ ++
          (moments (release l) u ++ moments rest.code ⟨true, true, free⟩)) := by
    rw [Calls.code, moments_append (run_acquire rfl), moments_append hu, moments_append hrelease]
  unfold Calls.Covered
  rw [hmoments]
  simp only [List.mem_append]
  constructor
  · intro h
    refine ⟨?_, fun t ht => h t (.inr (.inr (.inr ht)))⟩
    rcases huend with ⟨hirq, -⟩ | ⟨hdone, -⟩
    · rcases mem_moments hu with hmem | hnil
      · have hoff := (h u (.inr (.inl hmem)) ⟨l, hul⟩).1
        rw [hirq] at hoff
        cases hoff
      · cases body with
        | done => rfl
        | curProc r => cases hnil
        | locked k b r => cases hnil
    · exact hdone
  · rintro ⟨rfl, hrest⟩ t (hacq | hbody | hrel | ht) hheld
    · have hoff : ∀ v ∈ moments (acquire l) ⟨irq, fiq, free⟩,
          (∃ k, v.held k = true) → v.irq = false ∧ v.fiq = false := by
        simp [acquire, cpuIntrOff, moments, step, free]
      exact hoff t hacq hheld
    · cases hbody
    · cases hu
      have hoff : ∀ v ∈ moments (release l) ⟨false, false, update free l true⟩,
          (∃ k, v.held k = true) → v.irq = false ∧ v.fiq = false := by
        simp [release, cpuIntrOn, moments, step, hfree, free]
      exact hoff t hrel hheld
    · exact hrest t ht hheld

theorem restores_locked {body : Calls} (rest : Calls) (irq fiq : Bool)
    (hbody : body.Distinct (update free l true)) :
    (Calls.locked l body rest).Restores ⟨irq, fiq, free⟩ ↔
      (irq = true ∧ fiq = true) ∧ rest.Restores ⟨true, true, free⟩ := by
  have hsection : (Calls.locked l body .done).Distinct (Mask.mk irq fiq free).held :=
    ⟨rfl, hbody, trivial⟩
  obtain ⟨t, ht, hheld, hend⟩ := run_code hsection
  rcases hend with ⟨hirq, hfiq⟩ | ⟨hdone, -⟩
  · obtain rfl : t = ⟨true, true, free⟩ := by
      cases t
      simp_all
    have hrun : run (acquire l ++ (body.code ++ release l)) ⟨irq, fiq, free⟩ =
        .ok ⟨true, true, free⟩ := by
      rwa [Calls.code, Calls.code, List.append_nil] at ht
    simp [Calls.Restores, Calls.outermost, hrun]
  · cases hdone

/-- **Interrupts and locks**: they are off at every moment under a lock, and after an
outermost `release` only on as they were before, exactly when no call is made under a lock
and interrupts are on before the first call, if that is an `acquire`. -/
theorem spinlock_masked_iff {calls : Calls} (irq fiq : Bool) (h : calls.Distinct free) :
    calls.Covered ⟨irq, fiq, free⟩ ∧ calls.Restores ⟨irq, fiq, free⟩ ↔
      calls.Flat ∧ (calls.startsLocked = true → irq = true ∧ fiq = true) := by
  induction calls generalizing irq fiq with
  | done => simp [Calls.Covered, Calls.Restores, Calls.Flat, Calls.code, Calls.outermost, moments,
      Calls.startsLocked]
  | curProc rest ih =>
    have hrestores : (Calls.curProc rest).Restores ⟨irq, fiq, free⟩ ↔
        rest.Restores ⟨true, true, free⟩ := Iff.rfl
    rw [covered_curProc, hrestores, ih true true h]
    simp [Calls.Flat, Calls.startsLocked]
  | locked l body rest ihbody ihrest =>
    obtain ⟨-, hbody, hrest⟩ := h
    have hih := ihrest true true hrest
    rw [covered_locked rest irq fiq hbody, restores_locked rest irq fiq hbody]
    simp only [Calls.Flat, Calls.startsLocked, and_self, implies_true, and_true,
      forall_const] at hih ⊢
    rw [← hih]
    constructor
    · rintro ⟨⟨hdone, hcov⟩, hon, hres⟩
      exact ⟨⟨hdone, hcov, hres⟩, hon⟩
    · rintro ⟨⟨hdone, hcov, hres⟩, hon⟩
      exact ⟨⟨hdone, hcov⟩, hon, hres⟩

theorem spinlock_masked_iff_two_locks :
    (Calls.curProc (.locked 0 .done (.locked 1 .done .done))).Distinct free ∧
      (Calls.curProc (.locked 0 .done (.locked 1 .done .done))).Covered ⟨false, false, free⟩ ∧
      (Calls.curProc (.locked 0 .done (.locked 1 .done .done))).Restores ⟨false, false, free⟩ := by
  have h : (Calls.curProc (.locked 0 .done (.locked 1 .done .done))).Distinct free :=
    ⟨rfl, trivial, rfl, trivial, trivial⟩
  exact ⟨h, (spinlock_masked_iff false false h).2 ⟨⟨rfl, rfl, trivial⟩, fun h => by cases h⟩⟩

/-- The inner `release` enables interrupts under the outer lock; `cur_proc` does so under
any lock. -/
theorem release_enables_under_lock :
    (moments (Calls.locked 0 (.locked 1 .done .done) .done).code ⟨true, true, free⟩).any
        (fun t => t.held 0 && t.irq && t.fiq) = true ∧
      (moments (Calls.locked 0 (.curProc .done) .done).code ⟨true, true, free⟩).any
        (fun t => t.held 0 && t.irq && t.fiq) = true ∧
      ((Calls.locked 0 .done .done).outermost ⟨false, false, free⟩).any
        (fun p => !p.1.irq && p.2.irq) = true := by
  decide

end SpringOs.Spinlock
