import Mathlib.Algebra.Order.BigOperators.Group.Finset
import SpringOs.Atomic
import SpringOs.Lib.RefCount

/-!
`kobject_get` and `kobject_put` of `uspace/kobject.c` by several threads at once, down to the
instructions of `atomic_inc_if_postive` and `atomic_dec_set_negtive_if_zero`.

A thread has references to some kobjects. It takes another reference only to a kobject it has
one to, and gives back only what it has (`Owned`); which thread runs when is open, as long as
fewer than 2^31 references to a kobject are held at once (`Bounded`).

* `Inv.step`: every call keeps the count of every kobject exact;
* **`kobject_refs`**: no assertion fails; a kobject is released at most once, and then no thread
  has a reference to it; and whenever no call is under way the count is the number of
  references, or there are none and the kobject has been released.
-/

namespace SpringOs.KobjectRefs
open Lib.Arm Lib.Exclusive Lib.ArmExclusive Lib.Machine Lib.RefCount Atomic
open Function (update update_self update_of_ne)

variable {o : Op} {regs : Core}

/-! ## The calls -/

/-- The argument is the kobject, or null. -/
inductive Call
  | get (kobj : Word)
  | put (kobj : Word)

def Call.kobj : Call → Word
  | .get kobj | .put kobj => kobj

/-- The test both functions begin with. -/
def Call.null (call : Call) : Bool := call.kobj == 0

/-- `refs` and `released` are history: the references the thread has, and how often it has called
`kobject_release`. -/
structure Thread where
  todo : List Call
  refs : Word → Nat
  released : Word → Nat
  failed : Bool

/-- `&kobj->ref`. -/
def refOf (kobj : Word) : Word := kobj + 8

/-- The rest of `kobject_get`, with what `atomic_inc_if_postive` returned. -/
def kobjectGet (k : Thread) (kobj : Word) (rest : List Call) (old : Word) : Thread :=
  if 0 ≤ (narrow old).toInt then
    { k with todo := rest, refs := update k.refs kobj (k.refs kobj + 1) }
  else { k with failed := true }

/-- The rest of `kobject_put`. -/
def kobjectPut (k : Thread) (kobj : Word) (rest : List Call) (old : Word) : Thread :=
  if 0 < (narrow old).toInt then
    { k with
      todo := rest
      refs := update k.refs kobj (k.refs kobj - 1)
      released := if (narrow old).toInt = 1 then
        update k.released kobj (k.released kobj + 1) else k.released }
  else { k with failed := true }

/-- The calls from the next one on that makes an access: a call with a null pointer returns 0 at
once. -/
def Thread.calls (k : Thread) : List Call := k.todo.dropWhile Call.null

def access (k : Thread) : Option (Op × (Word → Thread)) :=
  if k.failed then none
  else match k.calls with
    | [] => none
    | .get kobj :: rest => some (.atomicIncIfPostive (refOf kobj), kobjectGet k kobj rest)
    | .put kobj :: rest => some (.atomicDecSetNegtiveIfZero (refOf kobj), kobjectPut k kobj rest)

def Call.refs (refs : Word → Nat) : Call → Word → Nat
  | .get kobj => update refs kobj (refs kobj + 1)
  | .put kobj => update refs kobj (refs kobj - 1)

/-- Every call is about a kobject the thread has a reference to, or has a null pointer. -/
def Owned (refs : Word → Nat) : List Call → Prop
  | [] => True
  | call :: rest =>
    if call.null then Owned refs rest else 0 < refs call.kobj ∧ Owned (call.refs refs) rest

theorem Owned.cons {refs : Word → Nat} {todo rest : List Call} {call : Call}
    (h : Owned refs todo) (hcalls : todo.dropWhile Call.null = call :: rest) :
    0 < refs call.kobj ∧ Owned (call.refs refs) rest := by
  induction todo with
  | nil => cases hcalls
  | cons first todo ih =>
    rw [List.dropWhile_cons] at hcalls
    rw [Owned] at h
    split at hcalls
    · rename_i hnull
      rw [if_pos hnull] at h
      exact ih h hcalls
    · rename_i hnull
      cases hcalls
      rwa [if_neg hnull] at h

/-- The reference a thread inside a call may be taking. -/
def Thread.taking (k : Thread) (kobj : Word) : Nat :=
  match k.calls with
  | .get kobj' :: _ => if kobj' = kobj then 1 else 0
  | _ => 0

/-- The references a processor holds, with the one it is taking. -/
def heldBy (kobj : Word) : Local Thread → Nat
  | .client k => k.refs kobj
  | .busy _ _ _ call => call.caller.refs kobj + call.caller.taking kobj

/-! ## Counts -/

variable {C : Type} [DecidableEq C] [Fintype C]

def total (loc : C → Thread) (f : Thread → Nat) : Nat := ∑ c, f (loc c)

/-- The count word of a kobject, next to the references all threads have. -/
def count (s : AtomicState C Word Word Thread) (kobj : Word) : Count :=
  ⟨(narrow (s.mem (refOf kobj))).toInt, total s.loc (·.refs kobj), total s.loc (·.released kobj),
    total s.loc (·.refs kobj) == 0⟩

/-- Fewer than 2^31 references to a kobject are held at once. -/
def Bounded (s : State C Word Word (Local Thread)) : Prop :=
  ∀ kobj, ∑ c, heldBy kobj (s.loc c) < 2147483648

/-- `objs` are the kobjects some thread had a reference to at the start. -/
structure Inv (objs : Word → Prop) (s : AtomicState C Word Word Thread) : Prop where
  failed : ∀ c, (s.loc c).failed = false
  owned : ∀ c, Owned (s.loc c).refs (s.loc c).todo
  exact : ∀ kobj, objs kobj → Exact (count s kobj)
  unknown : ∀ kobj, ¬ objs kobj → (count s kobj).holders = 0 ∧ (count s kobj).released = 0

theorem total_update (loc : C → Thread) (c : C) (k : Thread) (f : Thread → Nat) :
    total (update loc c k) f + f (loc c) = total loc f + f k := by
  have h := Finset.add_sum_erase Finset.univ (fun d => f (loc d)) (Finset.mem_univ c)
  have h' := Finset.add_sum_erase Finset.univ (fun d => f (update loc c k d))
    (Finset.mem_univ c)
  have hrest : ∑ d ∈ Finset.univ.erase c, f (update loc c k d) =
      ∑ d ∈ Finset.univ.erase c, f (loc d) :=
    Finset.sum_congr rfl fun d hd => by rw [update_of_ne (Finset.ne_of_mem_erase hd)]
  simp only [update_self] at h'
  unfold total
  omega

omit [DecidableEq C] in
theorem le_total (loc : C → Thread) (c : C) (f : Thread → Nat) : f (loc c) ≤ total loc f :=
  Finset.single_le_sum (f := fun d => f (loc d)) (fun _ _ => Nat.zero_le _) (Finset.mem_univ c)

theorem toInt_succ {v : CInt} (h0 : 0 ≤ v.toInt) (hlt : v.toInt + 1 < 2147483648) :
    (v + 1).toInt = v.toInt + 1 := by
  have h1 : (1 : CInt).toInt = 1 := rfl
  rw [BitVec.toInt_add, h1]
  exact Int.bmod_eq_of_le (by omega) (by omega)

theorem toInt_decremented {v : CInt} (h0 : 0 < v.toInt) :
    (decremented v).toInt = if v.toInt = 1 then -1 else v.toInt - 1 := by
  have h1 : (1 : CInt).toInt = 1 := rfl
  have hlt : v.toInt < 2147483648 := BitVec.toInt_lt
  have heq : v = 1 ↔ v.toInt = 1 := by rw [← BitVec.toInt_inj, h1]
  unfold decremented
  by_cases hv : v.toInt = 1
  · rw [if_pos hv, if_pos (heq.2 hv)]
    rfl
  · rw [if_neg hv, if_neg fun h => hv (heq.1 h), BitVec.toInt_sub, h1]
    exact Int.bmod_eq_of_le (by omega) (by omega)

variable {objs : Word → Prop} {s s' : AtomicState C Word Word Thread} {c : C} {kobj : Word}

omit [DecidableEq C] in
theorem Inv.live (h : Inv objs s) (kobj : Word) (hc : 0 < (s.loc c).refs kobj) :
    objs kobj ∧ (narrow (s.mem (refOf kobj))).toInt = total s.loc (·.refs kobj) ∧
      0 < total s.loc (·.refs kobj) := by
  have hle := le_total s.loc c (·.refs kobj)
  have hpos : 0 < total s.loc (·.refs kobj) := by omega
  have hobj : objs kobj := by
    by_contra hn
    exact hpos.ne' (h.unknown kobj hn).1
  rcases h.exact kobj hobj with ⟨-, -, href⟩ | ⟨-, -, -, hzero⟩
  · exact ⟨hobj, href, hpos⟩
  · exact absurd hzero hpos.ne'

theorem refOf_inj {p q : Word} : refOf p = refOf q ↔ p = q := BitVec.add_left_inj 8

theorem count_other {v : Word} {k : Thread} {p : Word} (hp : p ≠ kobj)
    (hrefs : k.refs p = (s.loc c).refs p) (hreleased : k.released p = (s.loc c).released p) :
    count ⟨update s.mem (refOf kobj) v, update s.loc c k⟩ p = count s p := by
  have h1 := total_update s.loc c k (·.refs p)
  have h2 := total_update s.loc c k (·.released p)
  have hr : total (update s.loc c k) (·.refs p) = total s.loc (·.refs p) := by omega
  have hd : total (update s.loc c k) (·.released p) = total s.loc (·.released p) := by
    omega
  simp only [count, hr, hd, update_of_ne fun h => hp (refOf_inj.1 h)]

/-- What a call leaves of the invariant, if it succeeds and keeps its own count exact. -/
theorem Inv.after (h : Inv objs s) {call : Call} {rest : List Call}
    (hcalls : (s.loc c).calls = call :: rest) (hobj : objs call.kobj) {v : Word}
    {released : Word → Nat}
    (hreleased : ∀ p, p ≠ call.kobj → released p = (s.loc c).released p)
    (hexact : Exact (count ⟨update s.mem (refOf call.kobj) v, update s.loc c
      ⟨rest, call.refs (s.loc c).refs, released, false⟩⟩ call.kobj)) :
    Inv objs ⟨update s.mem (refOf call.kobj) v, update s.loc c
      ⟨rest, call.refs (s.loc c).refs, released, false⟩⟩ := by
  have howned := (h.owned c).cons hcalls
  have hother : ∀ p, p ≠ call.kobj → count ⟨update s.mem (refOf call.kobj) v,
      update s.loc c ⟨rest, call.refs (s.loc c).refs, released, false⟩⟩ p = count s p :=
    fun p hp => count_other hp (by cases call <;> exact update_of_ne hp ..)
      (hreleased p hp)
  refine ⟨fun d => ?_, fun d => ?_, fun p hp => ?_, fun p hp => ?_⟩
  · by_cases hd : d = c
    · subst hd
      simp only [update_self]
    · simp only [update_of_ne hd, h.failed d]
  · by_cases hd : d = c
    · subst hd
      simpa only [update_self] using howned.2
    · simpa only [update_of_ne hd] using h.owned d
  · by_cases hcall : p = call.kobj
    · subst hcall
      exact hexact
    · rw [hother p hcall]
      exact h.exact p hp
  · rw [hother p fun hcall => hp (hcall ▸ hobj)]
    exact h.unknown p hp

section
variable {k : Thread} {n : Nat} (h : Exact (count s kobj))
  (hv : (narrow (s.mem (refOf kobj))).toInt = n) (hn : 0 < n)
  (htotal : total s.loc (·.refs kobj) = n)
include h hv hn htotal

theorem exact_get (hlt : n + 1 < 2147483648) (hrefs : k.refs kobj = (s.loc c).refs kobj + 1)
    (hreleased : k.released kobj = (s.loc c).released kobj) :
    Exact (count ⟨update s.mem (refOf kobj) (wide (narrow (s.mem (refOf kobj)) + 1)),
      update s.loc c k⟩ kobj) := by
  have h1 := total_update s.loc c k (·.refs kobj)
  have h2 := total_update s.loc c k (·.released kobj)
  have hr : total (update s.loc c k) (·.refs kobj) = n + 1 := by omega
  have hd : total (update s.loc c k) (·.released kobj) =
      total s.loc (·.released kobj) := by omega
  have hsucc := toInt_succ (v := narrow (s.mem (refOf kobj))) (by omega) (by omega)
  have hi32 : Lib.Word.i32 (1 + n) = n + 1 := by
    rw [Lib.Word.i32_of_lt (by omega) (by omega)]
    omega
  have heq : count ⟨update s.mem (refOf kobj) (wide (narrow (s.mem (refOf kobj)) + 1)),
      update s.loc c k⟩ kobj = (count s kobj).acquire := by
    simp only [count, Count.acquire, Count.hold, update_self, narrow_wide, hr, hd, hsucc,
      hv, htotal, hi32]
    simp [Nat.pos_iff_ne_zero.1 hn]
  have href : (count s kobj).ref = n := hv
  rw [heq, acquire_exact_iff h (by omega)]
  omega

/-- A decrement gives the reference back, and the last one releases the kobject. -/
theorem exact_put (hc : 0 < (s.loc c).refs kobj) (hrefs : k.refs kobj = (s.loc c).refs kobj - 1)
    (hreleased : k.released kobj = (s.loc c).released kobj + if n = 1 then 1 else 0) :
    Exact (count ⟨update s.mem (refOf kobj)
      (wide (decremented (narrow (s.mem (refOf kobj))))), update s.loc c k⟩ kobj) := by
  have h1 := total_update s.loc c k (·.refs kobj)
  have h2 := total_update s.loc c k (·.released kobj)
  have hr : total (update s.loc c k) (·.refs kobj) = n - 1 := by omega
  have hd : total (update s.loc c k) (·.released kobj) =
      total s.loc (·.released kobj) + if n = 1 then 1 else 0 := by omega
  have hdec := toInt_decremented (v := narrow (s.mem (refOf kobj))) (by omega)
  rw [hv] at hdec
  have heq : count ⟨update s.mem (refOf kobj)
      (wide (decremented (narrow (s.mem (refOf kobj))))), update s.loc c k⟩ kobj =
      (count s kobj).release := by
    by_cases hone : n = 1
    · simp [count, Count.release, Count.put, Count.hold, hr, hd, hv, hdec, htotal, hone]
    · have hone' : (n : Int) ≠ 1 := by omega
      have hne : (n - 1 == 0) = false := by simp; omega
      simp [count, Count.release, Count.put, Count.hold, hr, hd, hv, hdec, htotal, hone, hone', hne,
        hn.ne']
  have href : (count s kobj).ref = n := hv
  rw [heq]
  exact release_exact h (by omega)

end

section
variable {rest : List Call} (h : Inv objs s)
  (hs : atomicStep (atomic spec access) s c = some s')
include h hs

theorem Inv.get (hcalls : (s.loc c).calls = .get kobj :: rest)
    (hbound : total s'.loc (·.refs kobj) < 2147483648) : Inv objs s' := by
  have hok := h.failed c
  obtain ⟨hobj, hv, hpos⟩ := h.live kobj ((h.owned c).cons hcalls).1
  have hnonneg : 0 ≤ (narrow (s.mem (refOf kobj))).toInt := by omega
  have hs' := atomicStep_eq (by simp only [access, hok, hcalls]; rfl) hs
  simp only [spec, if_pos hnonneg, kobjectGet, narrow_wide, hok] at hs'
  subst hs'
  have hup := total_update s.loc c ⟨rest, Call.refs (s.loc c).refs (.get kobj),
    (s.loc c).released, false⟩ (·.refs kobj)
  simp only [Call.refs, update_self] at hup
  exact h.after hcalls hobj (fun _ _ => rfl) (exact_get (h.exact kobj hobj) hv hpos rfl
    (by simp only at hbound; omega) (update_self ..) rfl)

theorem Inv.put (hcalls : (s.loc c).calls = .put kobj :: rest) : Inv objs s' := by
  have hok := h.failed c
  have howned := ((h.owned c).cons hcalls).1
  obtain ⟨hobj, hv, hpos⟩ := h.live kobj howned
  have hpos' : 0 < (narrow (s.mem (refOf kobj))).toInt := by omega
  have hs' := atomicStep_eq (by simp only [access, hok, hcalls]; rfl) hs
  simp only [spec, if_neg (Int.not_le.2 hpos'), kobjectPut, if_pos hpos', narrow_wide, hok] at hs'
  subst hs'
  refine h.after hcalls hobj (fun p hp => ?_)
    (exact_put (h.exact kobj hobj) hv hpos rfl howned (update_self ..) ?_)
  · split
    · exact update_of_ne hp ..
    · rfl
  · by_cases hone : total s.loc (·.refs kobj) = 1
    · simp [hv, hone, Call.kobj]
    · have hone' : (total s.loc (·.refs kobj) : Int) ≠ 1 := by omega
      simp [hv, hone, hone', Call.kobj]

/-- **Every call keeps the invariant**, if it does not take the 2^31st reference. -/
theorem Inv.step (hbound : ∀ kobj, total s'.loc (·.refs kobj) < 2147483648) : Inv objs s' := by
  have hok := h.failed c
  cases hcalls : (s.loc c).calls with
  | nil => simp [atomicStep, atomic, access, hok, hcalls] at hs
  | cons call rest =>
    cases call with
    | get kobj => exact h.get hs hcalls (hbound kobj)
    | put kobj => exact h.put hs hcalls

end

/-! ## Runs -/

def start (todo : C → List Call) (refs : C → Word → Nat) (c : C) : Thread :=
  ⟨todo c, refs c, fun _ => 0, false⟩

omit [DecidableEq C] in
theorem Inv.start {todo : C → List Call} {refs : C → Word → Nat} {mem : Word → Word}
    (howned : ∀ c, Owned (refs c) (todo c))
    (hmem : ∀ kobj, 0 < total (start todo refs) (·.refs kobj) →
      (narrow (mem (refOf kobj))).toInt = total (start todo refs) (·.refs kobj)) :
    Inv (fun kobj => 0 < total (start todo refs) (·.refs kobj)) ⟨mem, start todo refs⟩ where
  failed := fun _ => rfl
  owned := howned
  exact := fun kobj hpos => .inl ⟨by simp [count, hpos.ne'],
    by simp [count, total, KobjectRefs.start], hmem kobj hpos⟩
  unknown := fun kobj hz => ⟨Nat.eq_zero_of_not_pos hz, by simp [count, total, KobjectRefs.start]⟩

theorem kobjectPut_released (k : Thread) (kobj : Word) (rest : List Call) (w p : Word) :
    k.released p ≤ (kobjectPut k kobj rest w).released p := by
  unfold kobjectPut
  split
  · by_cases hp : p = kobj
    · subst hp
      split <;> simp
    · split <;> simp [hp]
  · exact le_rfl

variable {cont : Word → Thread} {l : Local Thread} {m : Thread}

/-- A thread inside a call has not failed, and the rest of the call takes no release back. -/
theorem access_some {k : Thread} (ho : access k = some (o, cont)) :
    k.failed = false ∧ ∀ w p, k.released p ≤ (cont w).released p := by
  unfold access at ho
  split at ho
  · cases ho
  · next hok =>
    refine ⟨Bool.eq_false_iff.2 hok, fun w p => ?_⟩
    split at ho
    · cases ho
    · cases ho
      unfold kobjectGet
      split <;> exact le_rfl
    · cases ho
      exact kobjectPut_released ..

/-- A thread has failed, or released a kobject, only where it has with atomic calls. -/
theorem sees_thread (h : Sees (impl regs) access l m) (hm : m.failed = false) :
    l.caller.failed = false ∧ ∀ kobj, l.caller.released kobj ≤ m.released kobj := by
  rcases h with rfl | ⟨o, r, pc, act, call, rfl, ho, -, hat⟩
  · exact ⟨hm, fun _ => le_rfl⟩
  · obtain ⟨hok, hle⟩ := access_some ho
    refine ⟨hok, fun kobj => ?_⟩
    rcases hat with rfl | ⟨w, rfl⟩
    · exact le_rfl
    · exact hle w kobj

theorem access_refs {k : Thread} (ho : access k = some (o, cont)) (w p : Word) :
    (cont w).refs p ≤ k.refs p + k.taking p ∧ k.refs p ≤ (cont w).refs p + 1 := by
  unfold access at ho
  rw [Thread.taking]
  split at ho
  · cases ho
  · split at ho
    · cases ho
    · rename_i kobj rest hcalls
      cases ho
      rw [hcalls, kobjectGet]
      by_cases hp : p = kobj
      · subst hp
        split <;> simp
        omega
      · split <;> simp [hp, Ne.symm hp]
    · rename_i kobj rest hcalls
      cases ho
      rw [hcalls, kobjectPut]
      by_cases hp : p = kobj
      · subst hp
        split <;> simp
        omega
      · split <;> simp [hp]

theorem sees_refs (h : Sees (impl regs) access l m) (kobj : Word) :
    m.refs kobj ≤ heldBy kobj l := by
  rcases h with rfl | ⟨o, r, pc, act, call, rfl, ho, -, hat⟩
  · exact le_rfl
  · rcases hat with rfl | ⟨w, rfl⟩
    · exact Nat.le_add_right ..
    · exact (access_refs ho w kobj).1

/-- The atomic call leaves fewer than 2^31 references to each kobject. -/
def FewRefs (u : AtomicState C Word Word Thread) (c : C) : Prop :=
  ∀ v, atomicStep (atomic spec access) u c = some v →
    ∀ kobj, total v.loc (·.refs kobj) < 2147483648

theorem fewRefs_of_bounded (s : State C Word Word (Local Thread)) (e : C × Bool)
    (s' : State C Word Word (Local Thread)) (t t' : AtomicState C Word Word Thread)
    (hbound : ∀ v, step (issue (impl regs) access) s e = some v → Bounded v)
    (hs : step (issue (impl regs) access) s e = some s')
    (ht : atomicStep (atomic spec access) t e.1 = some t')
    (hsees : ∀ c, Sees (impl regs) access (s'.loc c) (t'.loc c)) : FewRefs t e.1 := by
  intro v hv kobj
  cases ht.symm.trans hv
  exact (Finset.sum_le_sum fun c _ => sees_refs (hsees c) kobj).trans_lt (hbound s' hs kobj)

theorem sees_client {m' : Thread} (h : Sees (impl regs) access (.client m) m') : m' = m := by
  rcases h with h | ⟨_, _, _, _, _, h, -⟩
  · cases h
    rfl
  · cases h

omit [DecidableEq C] in
theorem Inv.released (h : Inv objs s) (kobj : Word) :
    total s.loc (·.released kobj) ≤ 1 ∧
      (0 < total s.loc (·.released kobj) → total s.loc (·.refs kobj) = 0) := by
  by_cases hobj : objs kobj
  · rcases h.exact kobj hobj with ⟨-, hr, -⟩ | ⟨-, hr, -, hz⟩
    · have hr' : total s.loc (·.released kobj) = 0 := hr
      exact ⟨by omega, fun hpos => by omega⟩
    · exact ⟨hr.le, fun _ => hz⟩
  · have hr : total s.loc (·.released kobj) = 0 := (h.unknown kobj hobj).2
    exact ⟨by omega, fun hpos => by omega⟩

/-- **References are counted.** Threads get and put kobjects they have references to, in any
interleaving of their instructions in which fewer than 2^31 references to a kobject are held or
being taken at once. No assertion fails. A kobject is released at most once, and then no thread
outside a call has a reference to it. While no thread is in a call, the count of a kobject is the
number of references to it, or there are none and it has been released. A thread comes out of
its call if the others pause. -/
theorem kobject_refs (regs : Core) {mem : Word → Word} {todo : C → List Call}
    {refs : C → Word → Nat} (howned : ∀ c, Owned (refs c) (todo c))
    (hmem : ∀ kobj, 0 < total (start todo refs) (·.refs kobj) →
      (narrow (mem (refOf kobj))).toInt = total (start todo refs) (·.refs kobj))
    {s : State C Word Word (Local Thread)}
    (hrun : Steps (step (issue (impl regs) access))
      (fun u e => ∀ v, step (issue (impl regs) access) u e = some v → Bounded v)
      (boot mem (start todo refs)) s) :
    (∀ c, (s.loc c).caller.failed = false) ∧
    (∀ kobj, total (fun c => (s.loc c).caller) (·.released kobj) ≤ 1) ∧
    (∀ kobj c d m, 0 < (s.loc c).caller.released kobj → s.loc d = .client m → m.refs kobj = 0) ∧
    (∀ now : C → Thread, (∀ c, s.loc c = .client (now c)) →
      ∀ kobj, 0 < total (start todo refs) (·.refs kobj) →
        (narrow (s.mem (refOf kobj))).toInt = total now (·.refs kobj) ∧
          0 < total now (·.refs kobj) ∧ total now (·.released kobj) = 0 ∨
        total now (·.refs kobj) = 0 ∧ total now (·.released kobj) = 1) ∧
    ∀ c, Finishes (impl regs) access c s := by
  obtain ⟨t, htrun, htmem, hsees, hfin⟩ := runs_within (implements regs) fewRefs_of_bounded hrun
  have hinv := htrun.invariant (Inv.start howned hmem)
    fun u c v hu hbound hs => hu.step hs (hbound v hs)
  have hthread := fun c => sees_thread (hsees c) (hinv.failed c)
  -- What the threads know of releases is no more than what the atomic run has made.
  have hle : ∀ kobj, total (fun c => (s.loc c).caller) (·.released kobj) ≤
      total t.loc (·.released kobj) := fun kobj =>
    Finset.sum_le_sum fun c _ => (hthread c).2 kobj
  refine ⟨fun c => (hthread c).1, fun kobj => (hle kobj).trans (hinv.released kobj).1, ?_, ?_, hfin⟩
  · intro kobj c d m hc hd
    have hcle := le_total (fun c => (s.loc c).caller) c (·.released kobj)
    have hz := (hinv.released kobj).2 (by have := hle kobj; omega)
    have hdle := le_total t.loc d (·.refs kobj)
    have hm : t.loc d = m := sees_client (hd ▸ hsees d)
    rw [hm] at hdle
    omega
  · intro now hnow kobj hpos
    obtain rfl : t.loc = now := funext fun c => sees_client (hnow c ▸ hsees c)
    rw [← htmem]
    exact (hinv.exact kobj hpos).imp
      (fun ⟨hd, hr, href⟩ => ⟨href, by simpa [count, Nat.pos_iff_ne_zero] using hd, hr⟩)
      fun ⟨_, hr, _, hz⟩ => ⟨hz, hr⟩

/-! ## Programs with few calls -/

/-- The references a thread has and those it may still take. -/
def reach (kobj : Word) (k : Thread) : Nat :=
  k.refs kobj + k.todo.countP fun call => match call with
    | .get kobj' => kobj' == kobj
    | .put _ => false

theorem access_reach {k : Thread} (ho : access k = some (o, cont)) (w p : Word) :
    reach p (cont w) ≤ reach p k := by
  have hsub := (List.dropWhile_sublist (l := k.todo) Call.null).countP_le
    (p := fun call => match call with | .get kobj' => kobj' == p | .put _ => false)
  unfold access Thread.calls at ho
  split at ho
  · cases ho
  · split at ho
    · cases ho
    · rename_i kobj rest hcalls
      cases ho
      rw [hcalls, List.countP_cons] at hsub
      unfold kobjectGet reach
      by_cases hp : p = kobj
      · subst hp
        split <;> simp at hsub ⊢
        omega
      · split <;> simp [hp, Ne.symm hp] at hsub ⊢
        omega
    · rename_i kobj rest hcalls
      cases ho
      rw [hcalls, List.countP_cons] at hsub
      unfold kobjectPut reach
      by_cases hp : p = kobj
      · subst hp
        split <;> simp at hsub ⊢
        omega
      · split <;> simp [hp] at hsub ⊢
        omega

theorem sees_reach (h : Sees (impl regs) access l m) (kobj : Word) :
    heldBy kobj l ≤ reach kobj m + 2 := by
  rcases h with rfl | ⟨o, r, pc, act, call, rfl, ho, -, hat⟩
  · simp only [heldBy, reach]
    omega
  · have htaking : call.caller.taking kobj ≤ 1 := by
      unfold Thread.taking
      split
      · split <;> omega
      · omega
    rcases hat with rfl | ⟨w, rfl⟩
    · simp only [heldBy, reach]
      omega
    · have hle := (access_refs ho w kobj).2
      simp only [heldBy, reach]
      omega

/-- Where all threads together make fewer calls, every run is bounded. -/
theorem bounded_of_reach {mem : Word → Word} {todo : C → List Call} {refs : C → Word → Nat}
    (hfew : ∀ kobj, total (start todo refs) (reach kobj) + 2 * Fintype.card C < 2147483648)
    {s : State C Word Word (Local Thread)} (hrun : Run regs access (boot mem (start todo refs)) s) :
    Steps (step (issue (impl regs) access))
      (fun u e => ∀ v, step (issue (impl regs) access) u e = some v → Bounded v)
      (boot mem (start todo refs)) s := by
  induction hrun with
  | refl => exact .refl
  | tail e h _ hs ih =>
    refine ih.tail e (fun v hv kobj => ?_) hs
    obtain ⟨t, htrun, -, hsees, -⟩ := runs (implements regs) (h.tail e trivial hv)
    have hreach : total t.loc (reach kobj) ≤ total (start todo refs) (reach kobj) := by
      refine htrun.invariant (P := fun t => total t.loc (reach kobj) ≤
        total (start todo refs) (reach kobj)) le_rfl ?_
      intro u c w hu _ hw
      cases ho : access (u.loc c) with
      | none => simp [atomicStep, atomic, ho] at hw
      | some p =>
        obtain ⟨o, cont⟩ := p
        rw [atomicStep_eq ho hw]
        have hup := total_update u.loc c (cont ((spec o).2 (u.mem (spec o).1)).2) (reach kobj)
        have hle := access_reach ho ((spec o).2 (u.mem (spec o).1)).2 kobj
        simp only
        omega
    have hsum : ∑ c, heldBy kobj (v.loc c) ≤ ∑ c : C, (reach kobj (t.loc c) + 2) :=
      Finset.sum_le_sum fun c _ => sees_reach (hsees c) kobj
    rw [Finset.sum_add_distrib, Finset.sum_const, Finset.card_univ, Nat.nsmul_eq_mul] at hsum
    have hlt := hfew kobj
    unfold total at hreach hlt
    omega

/-- One kobject with a reference in each of two threads, and calls with a null pointer. -/
def twoThreads (c : Bool) : List Call :=
  if c then [.get 0, .get 4096, .put 4096, .put 4096] else [.put 4096, .put 0]

def oneEach (_ : Bool) (kobj : Word) : Nat := if kobj = 4096 then 1 else 0

/-- The second thread puts its reference while the first is between the exclusive load and the
exclusive store of its first call. -/
theorem kobject_refs_two :
    ∃ s : State Bool Word Word (Local Thread),
      Run someCore access (boot (fun _ => 2) (start twoThreads oneEach)) s ∧
      (∀ c, ∃ m, s.loc c = .client m ∧ m.calls = [] ∧ m.failed = false) ∧
      total (fun c => (s.loc c).caller) (·.released 4096) = 1 := by
  have hrun : ∃ s, run (step (issue (impl someCore) access))
      (boot (fun _ => 2) (start twoThreads oneEach))
      (List.replicate 4 (true, true) ++ List.replicate 9 (false, true) ++
        List.replicate 28 (true, true)) = some s ∧
      (∀ c, ∃ m, s.loc c = .client m ∧ m.calls = []) ∧
      0 < (s.loc true).caller.released 4096 :=
    ⟨_, rfl, fun c => by cases c <;> exact ⟨_, rfl, rfl⟩, by decide⟩
  obtain ⟨s, hs, hloc, hpos⟩ := hrun
  have hsteps := Steps.refl.run (fun _ _ => trivial) hs
  have howned : ∀ c, Owned (oneEach c) (twoThreads c) := fun c => by
    cases c <;> simp [Owned, twoThreads, oneEach, Call.null, Call.kobj, Call.refs]
  have hfew : ∀ kobj, total (start twoThreads oneEach) (reach kobj) + 2 * Fintype.card Bool <
      2147483648 := fun kobj => by
    by_cases h : kobj = 4096#64
    · simp [total, reach, start, twoThreads, oneEach, h]
    · by_cases h0 : kobj = 0#64
      · simp [total, reach, start, twoThreads, oneEach, h0]
      · simp [total, reach, start, twoThreads, oneEach, h, Ne.symm h, Ne.symm h0]
  have hmem : ∀ kobj, 0 < total (start twoThreads oneEach) (·.refs kobj) →
      (narrow 2).toInt = total (start twoThreads oneEach) (·.refs kobj) := fun kobj hpos => by
    by_cases h : kobj = 4096#64
    · simp only [total, start, oneEach, h]
      rfl
    · simp [total, start, oneEach, h] at hpos
  obtain ⟨hok, hone, -⟩ := kobject_refs someCore howned hmem (bounded_of_reach hfew hsteps)
  refine ⟨s, hsteps, fun c => ?_, ?_⟩
  · obtain ⟨m, hm, htodo⟩ := hloc c
    have hokc := hok c
    rw [hm] at hokc
    exact ⟨m, hm, htodo, hokc⟩
  · have hle := le_total (fun c => (s.loc c).caller) true (·.released 4096)
    have hmost := hone 4096
    omega

end SpringOs.KobjectRefs
