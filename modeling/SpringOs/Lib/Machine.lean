import Mathlib.Logic.Relation

/-!
Runs of a deterministic machine whose operations may be refused. `ok` says
which operations a client may issue in a state, `step` what they do; `Steps`
is the reachability relation, and `Steps.invariant` the one induction every
safety result uses.

`loop_rule` is the rule for a loop with an invariant and a measure.

For computations that may stop, `Exactly` says when they complete and with what;
`Exactly.bind` and `Exactly.foldlM` are its rules for sequences and for runs.
-/

namespace SpringOs.Lib.Machine

variable {σ α : Type} {step : σ → α → Option σ} {ok : σ → α → Prop}

/-- `t` is reached from `s` by operations that were all allowed and all
completed. -/
inductive Steps (step : σ → α → Option σ) (ok : σ → α → Prop) (s : σ) : σ → Prop
  | refl : Steps step ok s s
  | tail {t u : σ} (a : α) : Steps step ok s t → ok t a → step t a = some u → Steps step ok s u

variable {P : σ → Prop} {s t : σ}

/-- What holds at the start and survives every allowed operation holds in
every state reached. -/
theorem Steps.invariant (h : Steps step ok s t) (h0 : P s)
    (hstep : ∀ t a u, P t → ok t a → step t a = some u → P u) : P t := by
  induction h with
  | refl => exact h0
  | tail a _ ha hs ih => exact hstep _ a _ ih ha hs

variable {u : σ} {n : Nat} {ε β : Type} {x : Except ε β}

theorem Steps.trans (h : Steps step ok s t) (h' : Steps step ok t u) : Steps step ok s u := by
  induction h' with
  | refl => exact h
  | tail a _ ha hs ih => exact ih.tail a ha hs

/-- The state after a list of operations, if all of them complete. -/
def run (step : σ → α → Option σ) : σ → List α → Option σ
  | s, [] => some s
  | s, a :: as => (step s a).bind fun t => run step t as

/-- Where every operation is allowed, a completed list of operations is a run. -/
theorem Steps.run (h : Steps step ok s t) (hok : ∀ t a, ok t a) {as : List α}
    (hrun : run step t as = some u) : Steps step ok s u := by
  induction as generalizing t with
  | nil =>
    cases hrun
    exact h
  | cons a as ih =>
    obtain ⟨v, hv, hu⟩ := Option.bind_eq_some_iff.1 hrun
    exact ih (h.tail a (hok t a) hv) hu

/-! ## Loops -/

/-- `while (cond) body`, for at most so many rounds. -/
def loop (cond : σ → Bool) (body : σ → σ) : Nat → σ → σ
  | 0, s => s
  | n + 1, s => if cond s then loop cond body n (body s) else s

/-- An invariant of the body, which decreases `measure`, holds when the loop ends. -/
theorem loop_rule {cond : σ → Bool} {body : σ → σ} (measure : σ → Nat)
    (hbody : ∀ s, P s → cond s = true → P (body s) ∧ measure (body s) < measure s) (hs : P s)
    (hn : measure s ≤ n) : P (loop cond body n s) ∧ cond (loop cond body n s) = false := by
  induction n generalizing s with
  | zero =>
    refine ⟨hs, Bool.eq_false_iff.2 fun hc => ?_⟩
    have hlt := (hbody s hs hc).2
    omega
  | succ n ih =>
    rw [loop]
    split
    · rename_i hc
      obtain ⟨hP, hlt⟩ := hbody s hs hc
      exact ih hP (by omega)
    · rename_i hc
      exact ⟨hs, Bool.eq_false_iff.2 hc⟩

/-! ## Computations that may stop -/

theorem ok_of_bind {γ : Type} {f : β → Except ε γ} {c : γ} (h : (x >>= f) = .ok c) :
    ∃ b, x = .ok b ∧ f b = .ok c := by
  cases x with
  | error e => cases h
  | ok b => exact ⟨b, rfl, h⟩

theorem ok_of_toOption {b : β} (h : x.toOption = some b) : x = .ok b := by
  cases x with
  | error e => cases h
  | ok c =>
    cases h
    rfl

/-- The same with a body that may stop. A loop that does not end in `n` rounds gives nothing. -/
def loopM (cond : σ → Bool) (body : σ → Option σ) : Nat → σ → Option σ
  | 0, s => if cond s then none else some s
  | n + 1, s => if cond s then (body s).bind (loopM cond body n) else some s

theorem loopM_rule (cond : σ → Bool) (body : σ → Option σ) (measure : σ → Nat)
    (hbody : ∀ s, P s → cond s = true → ∃ t, body s = some t ∧ P t ∧ measure t < measure s)
    (hs : P s) (hn : measure s ≤ n) : ∃ t, loopM cond body n s = some t ∧ P t ∧ cond t = false := by
  induction n generalizing s with
  | zero =>
    cases hc : cond s with
    | true =>
      obtain ⟨t, -, -, hlt⟩ := hbody s hs hc
      omega
    | false => exact ⟨s, by simp [loopM, hc], hs, hc⟩
  | succ n ih =>
    cases hc : cond s with
    | true =>
      obtain ⟨t, ht, hP, hlt⟩ := hbody s hs hc
      obtain ⟨u, hu, hPu⟩ := ih hP (by omega)
      exact ⟨u, by simp [loopM, hc, ht, hu], hPu⟩
    | false => exact ⟨s, by simp [loopM, hc], hs, hc⟩

section
variable {ε β γ : Type} {x : Except ε β} {p : Prop} {R : β → Prop}

/-- The computation completes exactly when `p` holds, and then with a result in `R`. -/
def Exactly (x : Except ε β) (p : Prop) (R : β → Prop) : Prop :=
  match x with
  | .ok b => p ∧ R b
  | .error _ => ¬ p

variable {b : β} {q : Prop} {S : γ → Prop}

theorem Exactly.of_ok (hp : p) (hx : x = .ok b) (hR : R b) : Exactly x p R := by
  rw [hx]
  exact ⟨hp, hR⟩

theorem Exactly.of_error (hp : ¬ p) (hx : ∃ e, x = .error e) : Exactly x p R := by
  obtain ⟨e, hx⟩ := hx
  rw [hx]
  exact hp

theorem Exactly.ok_iff (h : Exactly x p R) : (∃ b, x = .ok b) ↔ p := by
  cases x with
  | ok b => exact ⟨fun _ => h.1, fun _ => ⟨b, rfl⟩⟩
  | error e => exact ⟨nofun, fun hp => absurd hp h⟩

theorem Exactly.result (h : Exactly x p R) (hx : x = .ok b) : R b := by
  rw [hx] at h
  exact h.2

theorem Exactly.bind {f : β → Except ε γ} (h : Exactly x p R)
    (hf : ∀ b, p → R b → Exactly (f b) q S) : Exactly (x >>= f) (p ∧ q) S := by
  cases x with
  | error e => exact fun hpq => h hpq.1
  | ok b =>
    have hb := hf b h.1 h.2
    change Exactly (f b) (p ∧ q) S
    cases hfb : f b with
    | ok c =>
      rw [hfb] at hb
      exact ⟨⟨h.1, hb.1⟩, hb.2⟩
    | error e =>
      rw [hfb] at hb
      exact fun hpq => hb hpq.2

/-- What is done with the result changes nothing about whether there is one. -/
theorem Exactly.map {f : β → γ} (h : Exactly x p R) (hf : ∀ b, R b → S (f b)) :
    Exactly (do return f (← x)) p S := by
  cases x with
  | error e => exact h
  | ok b => exact ⟨h.1, hf b h.2⟩

theorem Exactly.congr (h : Exactly x p R) (hpq : p ↔ q) : Exactly x q R := by
  rwa [← propext hpq]

end

section
variable {ε τ : Type} {next : τ → α → τ} {safe : τ → α → Prop}

/-- Every operation of the list is safe in the state of the specification it finds. -/
def Along (safe : τ → α → Prop) (next : τ → α → τ) : τ → List α → Prop
  | _, [] => True
  | t, a :: as => safe t a ∧ Along safe next (next t a) as

/-- A machine whose steps complete exactly when they are safe, over a whole list of them. -/
theorem Exactly.foldlM {step : σ → α → Except ε σ} {R : τ → σ → Prop}
    {as : List α} (hstep : ∀ t s, ∀ a ∈ as, R t s → Exactly (step s a) (safe t a) (R (next t a)))
    {t : τ} {s : σ} (h : R t s) :
    Exactly (as.foldlM step s) (Along safe next t as) (R (as.foldl next t)) := by
  induction as generalizing t s with
  | nil => exact ⟨trivial, h⟩
  | cons a as ih =>
    rw [List.foldlM_cons]
    exact (hstep t s a List.mem_cons_self h).bind fun s' _ hs' =>
      ih (fun t s b hb => hstep t s b (List.mem_cons_of_mem a hb)) hs'

end

end SpringOs.Lib.Machine
