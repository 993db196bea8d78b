import SpringOs.Sched

/-!
`add_proc_to_ready_list` and `rm_proc_from_ready_list` of `sched2.c`, and the histories they
can be called in: the ready lists of every CPU, the processes that `create_proc` returned,
`proc_ready` and the move of `pick_next`.

Both functions tell from `sched_list.next` whether the process is on a ready list. The link is
set by `INIT_LIST_HEAD`, by `list_add_tail` and by `list_del`, and none of them leaves `NULL`.

* **`Inv`**: the links hold disjoint lists of created processes, and no created process has a
  null link;
* `step_inv`, `steps_inv`: every history keeps it;
* `ready_list_assertions_iff`: which calls the assertions judge rightly;
* **`Shows`**, `sched_history`: the runs of `Sched` are histories, seen at the lists of the
  current CPU.
-/

namespace SpringOs.ReadyList
open Kernel Lib.LinkedList Lib.Machine
open Function (update update_self update_of_ne Injective)

/-! ## The ready lists of all CPUs -/

/-- What the links point at: the ready lists of a CPU, the `sched_list` of a process, the two
poison values, and `NULL`. -/
inductive Node
  | head (cpu prio : Fin 8)
  | proc (p : Nat)
  | poison1
  | poison2
  | null
  deriving DecidableEq

def Node.isObject : Node → Bool
  | .head .. | .proc _ => true
  | _ => false

structure System where
  links : Links Node
  prio : Nat → Int
  localRdyGrp : Fin 8 → BitVec 8
  /-- What `create_proc` returned. -/
  created : List Nat

/-- The heads, in the order of the loops of `init_cpus`. -/
def heads : List Node :=
  (List.finRange 8).flatMap fun cpu => (List.finRange 8).map fun j => .head cpu j

def initCpus (links : Links Node) (prio : Nat → Int) : System where
  links := heads.foldl Links.init links
  prio := prio
  localRdyGrp := fun _ => 0
  created := []

/-- `proc_alloc` and the priority that `create_proc` sets. -/
def createProc (s : System) (p : Nat) (prio : Int) : System :=
  { s with
    links := s.links.init (.proc p)
    prio := update s.prio p prio
    created := p :: s.created }

/-- The index into `ready_list`. -/
def readyIndex (prio : Int) : Except Fault (Fin 8) :=
  if 0 ≤ prio ∧ prio < 8 then .ok (Fin.ofNat 8 prio.toNat) else .error .outOfBounds

/-- `list_del`, which writes through both links of the entry. -/
def listDel (m : Links Node) (x : Node) : Except Fault (Links Node) :=
  if (m.next x).isObject && (m.prev x).isObject then .ok (m.del x .poison1 .poison2)
  else .error .wildAccess

/-- The last two statements of `proc_ready` and of `add_proc_to_ready_list`. -/
def append (s : System) (cpu : Fin 8) (p : Nat) : Except Fault System := do
  let i ← readyIndex (s.prio p)
  .ok { s with
    links := s.links.addTail (.proc p) (.head cpu i)
    localRdyGrp := update s.localRdyGrp cpu (s.localRdyGrp cpu ||| 1#8 <<< i.val) }

/-- `proc_ready`; the current CPU is the first one. -/
def procReady (s : System) (p : Nat) : Except Fault System := append s 0 p

def addProcToReadyList (s : System) (cpu : Fin 8) (p : Nat) : Except Fault System :=
  if s.links.next (.proc p) ≠ .null then .error (.assertion .addProcToReadyList)
  else append s cpu p

def rmProcFromReadyList (s : System) (cpu : Fin 8) (p : Nat) : Except Fault System :=
  if s.links.next (.proc p) = .null then .error (.assertion .rmProcFromReadyList)
  else do
    let links ← listDel s.links (.proc p)
    let i ← readyIndex (s.prio p)
    let grp := s.localRdyGrp cpu
    let grp := if links.next (.head cpu i) = .head cpu i then grp &&& ~~~(1#8 <<< i.val) else grp
    .ok { s with
      links := links
      localRdyGrp := update s.localRdyGrp cpu grp }

/-- `pick_next`, as far as the lists are concerned. -/
def pickNext (s : System) : Except Fault System :=
  let prio := Sched.ffsOneTable.getD (s.localRdyGrp 0).toNat (-1)
  if prio = -1 then .error (.assertion .pickNext)
  else
    let head := Node.head 0 (Fin.ofNat 8 prio.toNat)
    if s.links.next head = head then .error (.assertion .pickNext)
    else
      match s.links.next head with
      | .proc np => do
        let links ← listDel s.links (.proc np)
        .ok { s with links := links.addTail (.proc np) head }
      | _ => .error .wildAccess

/-! ## Calls and histories -/

inductive Call
  | add (cpu : Fin 8) (p : Nat)
  | rm (cpu : Fin 8) (p : Nat)

def Call.proc : Call → Nat
  | .add _ p | .rm _ p => p

def Call.isAdd : Call → Bool
  | .add .. => true
  | .rm .. => false

def exec (s : System) : Call → Except Fault System
  | .add cpu p => addProcToReadyList s cpu p
  | .rm cpu p => rmProcFromReadyList s cpu p

def execAll : System → List Call → Except Fault System
  | s, [] => .ok s
  | s, c :: cs => do
    let s ← exec s c
    execAll s cs

def OnReadyList (s : System) (p : Nat) : Prop :=
  ∃ cpu prio xs, Ring s.links (.head cpu prio) xs ∧ .proc p ∈ xs

/-- A process is added while it is on no list, and removed while it is on one. -/
def Legal (s : System) : Call → Prop
  | .add _ p => ¬ OnReadyList s p
  | .rm _ p => OnReadyList s p

/-- Every call of the sequence is about a created process and legal where it is made. -/
def LegalRun : System → List Call → Prop
  | _, [] => True
  | s, c :: cs => c.proc ∈ s.created ∧ Legal s c ∧ ∀ s', exec s c = .ok s' → LegalRun s' cs

def AssertionFails (r : Except Fault System) : Prop :=
  r = .error (.assertion .addProcToReadyList) ∨ r = .error (.assertion .rmProcFromReadyList)

inductive Op
  | create (p : Nat) (prio : Int)
  | ready (p : Nat)
  | pick
  | call (c : Call)

def step (s : System) : Op → Option System
  | .create p prio => some (createProc s p prio)
  | .ready p => (procReady s p).toOption
  | .pick => (pickNext s).toOption
  | .call c => (exec s c).toOption

/-- The memory of a new process is on no list; a process is made ready while it is on no
list. -/
def ok (s : System) : Op → Prop
  | .create p _ => ¬ OnReadyList s p
  | .ready p => p ∈ s.created ∧ ¬ OnReadyList s p
  | .pick => True
  | .call c => c.proc ∈ s.created ∧ Legal s c

/-! ## The lists -/

def headOf (i : Fin 8 × Fin 8) : Node := .head i.1 i.2

/-- The links hold the lists `q`, of created processes with the priority of their list; no
created process has a null link. -/
structure Inv (s : System) (q : Fin 8 × Fin 8 → List Node) : Prop where
  rings : Rings s.links headOf q
  queued : ∀ i, ∀ z ∈ q i, ∃ p ∈ s.created, z = .proc p ∧ s.prio p = i.2.val
  live : ∀ p ∈ s.created, s.links.next (.proc p) ≠ .null

section
variable {s s' : System} {q : Fin 8 × Fin 8 → List Node} {p : Nat}

theorem Inv.onReadyList_iff (h : Inv s q) : OnReadyList s p ↔ ∃ i, .proc p ∈ q i := by
  constructor
  · rintro ⟨cpu, prio, xs, hring, hmem⟩
    have huniq := hring.unique (h.rings.ring (cpu, prio))
    exact ⟨(cpu, prio), huniq ▸ hmem⟩
  · rintro ⟨i, hmem⟩
    exact ⟨i.1, i.2, q i, h.rings.ring i, hmem⟩

theorem Inv.notMem (h : Inv s q) (hp : ¬ OnReadyList s p) (i : Fin 8 × Fin 8) :
    Node.proc p ∉ headOf i :: q i := by
  intro hmem
  rcases List.mem_cons.1 hmem with hhead | hq
  · cases hhead
  · exact hp (h.onReadyList_iff.2 ⟨i, hq⟩)

theorem initCpus_inv (links : Links Node) (prio : Nat → Int) :
    Inv (initCpus links prio) fun _ => [] where
  rings := by
    constructor
    · intro i
      have hmem : headOf i ∈ heads := by
        refine List.mem_flatMap.2 ⟨i.1, List.mem_finRange _, ?_⟩
        exact List.mem_map_of_mem (List.mem_finRange i.2)
      exact ring_foldl_init (.inl hmem)
    · intro i j hij z hz hz'
      rw [List.mem_singleton] at hz hz'
      have hhead : headOf i = headOf j := hz.symm.trans hz'
      rw [headOf, headOf, Node.head.injEq] at hhead
      exact hij (Prod.ext hhead.1 hhead.2)
  queued i z hz := by cases hz
  live p hp := by cases hp

theorem Inv.create (h : Inv s q) (hp : ¬ OnReadyList s p) (prio : Int) :
    Inv (createProc s p prio) q where
  rings := h.rings.init (h.notMem hp)
  queued i z hz := by
    obtain ⟨y, hy, rfl, hprio⟩ := h.queued i z hz
    have hyp : y ≠ p := by
      rintro rfl
      exact hp (h.onReadyList_iff.2 ⟨i, hz⟩)
    exact ⟨y, List.mem_cons_of_mem p hy, rfl, (update_of_ne hyp ..).trans hprio⟩
  live y hy := by
    apply init_next (P := (· ≠ Node.null))
    · simp
    · intro hne
      have hyp : y ≠ p := fun e => hne (congrArg Node.proc e)
      exact h.live y ((List.mem_cons.1 hy).resolve_left hyp)

theorem readyIndex_ok {prio : Int} {i : Fin 8} : readyIndex prio = .ok i ↔ prio = i.val := by
  unfold readyIndex
  split_ifs with hrange
  · rw [Except.ok.injEq, Fin.ext_iff, Fin.val_ofNat]
    omega
  · have hi := i.isLt
    simp only [false_iff]
    omega

section

variable (h : Inv s q)
include h

variable {i : Fin 8 × Fin 8}

theorem Inv.addTail (hp : p ∈ s.created) (hprio : s.prio p = i.2.val)
    (hnot : ∀ j, Node.proc p ∉ headOf j :: q j) (grp : Fin 8 → BitVec 8) :
    Inv { s with links := s.links.addTail (.proc p) (headOf i), localRdyGrp := grp }
      (update q i (q i ++ [.proc p])) where
  rings := h.rings.addTail i hnot
  queued j z hz := by
    by_cases hj : j = i
    · subst hj
      rw [update_self, List.mem_append, List.mem_singleton] at hz
      rcases hz with hz | rfl
      · exact h.queued j z hz
      · exact ⟨p, hp, rfl, hprio⟩
    · rw [update_of_ne hj] at hz
      exact h.queued j z hz
  live y hy := by
    apply addTail_next (P := (· ≠ Node.null))
    · simp
    · simp [headOf]
    · exact fun _ => h.live y hy

theorem Inv.append {cpu : Fin 8} (hp : p ∈ s.created) (hnot : ¬ OnReadyList s p)
    (happ : append s cpu p = .ok s') : ∃ q', Inv s' q' := by
  obtain ⟨i, hi, hs'⟩ := ok_of_bind happ
  cases hs'
  have hprio : s.prio p = i.val := readyIndex_ok.1 hi
  exact ⟨_, h.addTail (i := (cpu, i)) hp hprio (h.notMem hnot) _⟩

/-! ## Deletion -/

theorem Inv.isObject {z : Node} (hz : z ∈ headOf i :: q i) : z.isObject = true := by
  rcases List.mem_cons.1 hz with rfl | hz
  · rfl
  · obtain ⟨p, -, rfl, -⟩ := h.queued i z hz
    rfl

theorem Inv.listDel {x : Node} (hx : x ∈ q i) :
    listDel s.links x = .ok (s.links.del x .poison1 .poison2) := by
  obtain ⟨xs, ys, hq⟩ := List.append_of_mem hx
  have hpath := (h.rings.ring i).2
  rw [hq] at hpath
  obtain ⟨hfront, hrear⟩ := path_append.1 hpath
  have hprev : (s.links.prev x).isObject = true := by
    apply h.isObject (i := i)
    have hmem := hfront.prev_mem
    grind
  have hnext : (s.links.next x).isObject = true := by
    apply h.isObject (i := i)
    have hmem := hrear.next_mem
    grind
  rw [ReadyList.listDel, hprev, hnext]
  rfl

theorem Inv.del {xs ys : List Node} (hq : q i = xs ++ .proc p :: ys) (grp : Fin 8 → BitVec 8) :
    Inv { s with links := s.links.del (.proc p) .poison1 .poison2, localRdyGrp := grp }
      (update q i (xs ++ ys)) where
  rings := h.rings.del hq .poison1 .poison2
  queued j z hz := by
    apply h.queued j z
    by_cases hj : j = i
    · subst hj
      rw [update_self] at hz
      rw [hq]
      grind
    · rwa [update_of_ne hj] at hz
  live y hy := by
    obtain ⟨p', hp', hpp, -⟩ := h.queued i (.proc p) (by rw [hq]; simp)
    obtain rfl := Node.proc.inj hpp
    exact del_next (P := (· ≠ Node.null)) (by simp) (h.live p hp') (h.live y hy)

theorem Inv.rm (cpu : Fin 8) (hp : OnReadyList s p) :
    ∃ s', rmProcFromReadyList s cpu p = .ok s' ∧ ∃ q', Inv s' q' := by
  obtain ⟨i, hmem⟩ := h.onReadyList_iff.1 hp
  obtain ⟨xs, ys, hq⟩ := List.append_of_mem hmem
  obtain ⟨p', hp', hpp, hprio⟩ := h.queued i _ hmem
  obtain rfl := Node.proc.inj hpp
  rw [rmProcFromReadyList, if_neg (h.live p hp'), h.listDel hmem]
  change ∃ s', (readyIndex (s.prio p) >>= _) = .ok s' ∧ _
  rw [readyIndex_ok.2 hprio]
  exact ⟨_, rfl, _, h.del hq _⟩

theorem Inv.first {cpu i : Fin 8} (hnext : s.links.next (.head cpu i) = .proc p) :
    ∃ xs, q (cpu, i) = .proc p :: xs := by
  have hring := h.rings.ring (cpu, i)
  cases hq : q (cpu, i) with
  | nil =>
    rw [hq] at hring
    have hself : s.links.next (.head cpu i) = .head cpu i := hring.2.1
    rw [hself] at hnext
    cases hnext
  | cons x xs =>
    rw [hq] at hring
    have hfirst : x = .proc p := hring.next_cons.1.symm.trans hnext
    exact ⟨xs, by rw [hfirst]⟩

theorem Inv.pick (hpick : pickNext s = .ok s') : ∃ q', Inv s' q' := by
  unfold pickNext at hpick
  extract_lets prio head at hpick
  split_ifs at hpick with hprio hempty
  split at hpick
  · rename_i np hnext
    obtain ⟨xs, hfirst⟩ := h.first hnext
    have hq : q (0, Fin.ofNat 8 prio.toNat) = [] ++ .proc np :: xs := hfirst
    have hmem : Node.proc np ∈ q (0, Fin.ofNat 8 prio.toNat) := hfirst ▸ List.mem_cons_self
    rw [h.listDel hmem] at hpick
    cases hpick
    obtain ⟨p, hp, hnp, hprio'⟩ := h.queued _ _ hmem
    obtain rfl := Node.proc.inj hnp
    exact ⟨_, (h.del hq s.localRdyGrp).addTail hp hprio' (h.rings.del_notMem hq) _⟩
  · cases hpick

/-! ## Histories -/

/-- A created process never passes the assertion of `add_proc_to_ready_list`, and always the
one of `rm_proc_from_ready_list`. -/
theorem Inv.assertionFails_iff {c : Call} (hc : c.proc ∈ s.created) :
    AssertionFails (exec s c) ↔ c.isAdd = true := by
  have hlive := h.live c.proc hc
  cases c with
  | add cpu p =>
    have hfails : exec s (.add cpu p) = .error (.assertion .addProcToReadyList) := if_pos hlive
    simp [hfails, AssertionFails, Call.isAdd]
  | rm cpu p =>
    have hexec : exec s (.rm cpu p) = _ := if_neg hlive
    simp only [hexec, AssertionFails, Call.isAdd, Bool.false_eq_true, iff_false]
    unfold ReadyList.listDel readyIndex
    split_ifs <;> rintro (hr | hr) <;> cases hr

theorem Inv.exec {c : Call} (hc : c.proc ∈ s.created) (hlegal : Legal s c)
    (hexec : exec s c = .ok s') : ∃ q', Inv s' q' := by
  cases c with
  | add cpu p =>
    have hfails : ReadyList.exec s (.add cpu p) = .error _ := if_pos (h.live p hc)
    rw [hfails] at hexec
    cases hexec
  | rm cpu p =>
    obtain ⟨s'', hrm, hinv⟩ := h.rm cpu hlegal
    have heq : s'' = s' := Except.ok.inj (hrm.symm.trans hexec)
    exact heq ▸ hinv

end

theorem step_inv {a : Op} (h : ∃ q, Inv s q) (hok : ok s a) (hstep : step s a = some s') :
    ∃ q, Inv s' q := by
  obtain ⟨q, hq⟩ := h
  cases a with
  | create p prio =>
    cases hstep
    exact ⟨q, hq.create hok prio⟩
  | ready p => exact hq.append hok.1 hok.2 (ok_of_toOption hstep)
  | pick => exact hq.pick (ok_of_toOption hstep)
  | call c => exact hq.exec hok.1 hok.2 (ok_of_toOption hstep)

theorem steps_inv {links : Links Node} {prio : Nat → Int}
    (h : Steps step ok (initCpus links prio) s) : ∃ q, Inv s q := by
  refine h.invariant (P := fun s => ∃ q, Inv s q) ⟨_, initCpus_inv links prio⟩ ?_
  exact fun _ _ _ hq hok hstep => step_inv hq hok hstep

/-- A legal sequence of removals completes. -/
theorem Inv.execAll_ok {cs : List Call} (h : Inv s q) (hlegal : LegalRun s cs)
    (hrm : ∀ c ∈ cs, c.isAdd = false) : ∃ s', execAll s cs = .ok s' := by
  induction cs generalizing s q with
  | nil => exact ⟨s, rfl⟩
  | cons c cs ih =>
    obtain ⟨-, hc, hrest⟩ := hlegal
    obtain ⟨hfirst, hothers⟩ := List.forall_mem_cons.1 hrm
    cases c with
    | add cpu p => cases hfirst
    | rm cpu p =>
      obtain ⟨s', hexec, q', hinv⟩ := h.rm cpu hc
      obtain ⟨s'', hall⟩ := ih hinv (hrest s' hexec) hothers
      refine ⟨s'', ?_⟩
      change (rmProcFromReadyList s cpu p >>= _) = _
      rw [hexec]
      exact hall

/-- A legal sequence stops at its first addition. -/
theorem Inv.execAll_fails {cs : List Call} (h : Inv s q) (hlegal : LegalRun s cs)
    (hadd : ∃ c ∈ cs, c.isAdd = true) : AssertionFails (execAll s cs) := by
  induction cs generalizing s q with
  | nil =>
    obtain ⟨c, hc, -⟩ := hadd
    cases hc
  | cons c cs ih =>
    obtain ⟨hp, hc, hrest⟩ := hlegal
    cases c with
    | add cpu p =>
      have hfails : addProcToReadyList s cpu p = .error _ := if_pos (h.live p hp)
      left
      change (addProcToReadyList s cpu p >>= _) = _
      rw [hfails]
      rfl
    | rm cpu p =>
      obtain ⟨s', hexec, q', hinv⟩ := h.rm cpu hc
      obtain ⟨c, hmem, hadd⟩ := hadd
      have hmem : c ∈ cs := by
        refine (List.mem_cons.1 hmem).resolve_left ?_
        rintro rfl
        cases hadd
      change AssertionFails (rmProcFromReadyList s cpu p >>= _)
      rw [hexec]
      exact ih hinv (hrest s' hexec) ⟨c, hmem, hadd⟩

/-- **The assertions of the ready lists**, in every state that can be reached. A legal
sequence of calls fails no assertion exactly when nothing is added, and it then completes; a
call in the wrong state fails its assertion exactly when it is an addition. -/
theorem ready_list_assertions_iff (links : Links Node) (prio : Nat → Int)
    (h : Steps step ok (initCpus links prio) s) :
    (∀ cs, LegalRun s cs →
      (¬ AssertionFails (execAll s cs) ↔ ∀ c ∈ cs, c.isAdd = false) ∧
        ((∀ c ∈ cs, c.isAdd = false) → ∃ s', execAll s cs = .ok s')) ∧
      ∀ c : Call, c.proc ∈ s.created → ¬ Legal s c →
        (AssertionFails (exec s c) ↔ c.isAdd = true) := by
  obtain ⟨q, hinv⟩ := steps_inv h
  refine ⟨fun cs hlegal => ⟨⟨?_, ?_⟩, hinv.execAll_ok hlegal⟩, fun c hc _ => ?_⟩
  · intro hpass c hc
    exact Bool.eq_false_iff.2 fun hadd => hpass (hinv.execAll_fails hlegal ⟨c, hc, hadd⟩)
  · intro hrm
    obtain ⟨s', hs'⟩ := hinv.execAll_ok hlegal hrm
    rw [hs']
    rintro (hr | hr) <;> cases hr
  · exact hinv.assertionFails_iff hc

end

/-- The kernel with one process, of priority 3, that `create_proc` returned. -/
def oneCreated : System := createProc (initCpus ⟨id, id⟩ fun _ => -1) 0 3

/-- The same after `proc_ready`. -/
def oneReady : System :=
  { oneCreated with
    links := oneCreated.links.addTail (.proc 0) (.head 0 3)
    localRdyGrp := update oneCreated.localRdyGrp 0 8 }

theorem initCpus_notOn (links : Links Node) (prio : Nat → Int) (p : Nat) :
    ¬ OnReadyList (initCpus links prio) p := by
  rw [(initCpus_inv links prio).onReadyList_iff]
  simp

theorem oneCreated_inv : Inv oneCreated fun _ => [] :=
  (initCpus_inv _ _).create (initCpus_notOn _ _ _) 3

theorem oneCreated_notOn : ¬ OnReadyList oneCreated 0 := by
  rw [oneCreated_inv.onReadyList_iff]
  simp

theorem oneCreated_reached :
    Steps step ok (initCpus ⟨id, id⟩ fun _ => -1) oneCreated :=
  (Steps.refl).tail (.create 0 3) (initCpus_notOn _ _ _) rfl

theorem oneReady_on : OnReadyList oneReady 0 := by
  have hnot := oneCreated_inv.notMem oneCreated_notOn
  have hinv : Inv oneReady _ :=
    oneCreated_inv.addTail (i := (0, 3)) List.mem_cons_self rfl hnot _
  rw [hinv.onReadyList_iff]
  exact ⟨(0, 3), by simp⟩

/-- A process that `proc_ready` queued is removed, and it cannot be added a second time. -/
theorem ready_list_assertions_queued :
    Legal oneReady (.rm 0 0) ∧ (∃ s, execAll oneReady [.rm 0 0] = .ok s) ∧
      ¬ Legal oneReady (.add 0 0) ∧ AssertionFails (exec oneReady (.add 0 0)) := by
  have hreach : Steps step ok (initCpus ⟨id, id⟩ fun _ => -1) oneReady :=
    oneCreated_reached.tail (.ready 0) ⟨List.mem_cons_self, oneCreated_notOn⟩ rfl
  obtain ⟨hlegal, hwrong⟩ := ready_list_assertions_iff _ _ hreach
  have hrun : LegalRun oneReady [.rm 0 0] := ⟨List.mem_cons_self, oneReady_on, fun _ _ => trivial⟩
  have hnot : ¬ Legal oneReady (.add 0 0) := not_not.2 oneReady_on
  refine ⟨oneReady_on, (hlegal _ hrun).2 ?_, hnot, (hwrong _ List.mem_cons_self hnot).2 rfl⟩
  simp [Call.isAdd]

/-- A new process is refused when it is added, and its removal, which should be refused,
completes. -/
theorem ready_list_assertions_new :
    Steps step ok (initCpus ⟨id, id⟩ fun _ => -1) oneCreated ∧
      Legal oneCreated (.add 0 0) ∧
      exec oneCreated (.add 0 0) = .error (.assertion .addProcToReadyList) ∧
      ¬ Legal oneCreated (.rm 0 0) ∧ ∃ s, exec oneCreated (.rm 0 0) = .ok s :=
  ⟨oneCreated_reached, oneCreated_notOn, rfl, oneCreated_notOn, _, rfl⟩

/-! ## The runs of the scheduler -/

/-- The lists of the scheduler are those of the first CPU. -/
def firstCpu : Sched.Node → Node
  | .head prio => .head 0 prio
  | .proc p => .proc p
  | .poison1 => .poison1
  | .poison2 => .poison2

theorem firstCpu_injective : Injective firstCpu := by
  intro x y h
  cases x <;> cases y <;> simp_all [firstCpu]

/-- The system has the lists of the scheduler's CPU. -/
structure Shows (c : Sched.Cpu) (s : System) : Prop where
  links : Embeds firstCpu c.links s.links
  grp : s.localRdyGrp 0 = c.localRdyGrp

section
variable {prio : Nat → Fin 8} {c c' : Sched.Cpu} {s : System} {q : Fin 8 × Fin 8 → List Node}
  {p : Nat}

theorem shows_boot {links : Links Sched.Node} {links' : Links Node} (root : Nat)
    (h : Embeds firstCpu links links') (prio₀ : Nat → Int) :
    Shows (Sched.boot links root) (initCpus links' prio₀) where
  links := by
    have hheads : ∀ z, firstCpu z ∈ heads ↔ z ∈ (List.finRange 8).map Sched.Node.head := by
      intro z
      cases z <;> simp [heads, firstCpu]
    have hinit := h.foldl_init hheads
    rwa [List.foldl_map] at hinit
  grp := rfl

theorem Shows.ready (h : Shows c s) (prio : Nat → Fin 8) (p : Nat) :
    ∃ s', procReady (createProc s p (prio p).val) p = .ok s' ∧
      Shows (Sched.procReady prio c p) s' ∧ s'.created = p :: s.created := by
  have hindex : readyIndex ((createProc s p (prio p).val).prio p) = .ok (prio p) :=
    readyIndex_ok.2 (update_self ..)
  rw [procReady, append, hindex]
  refine ⟨_, rfl, ⟨?_, ?_⟩, rfl⟩
  · have hadd := h.links.addTail firstCpu_injective (.proc p) (.head (prio p))
    have hnew : firstCpu (.proc p) ≠ firstCpu (.head (prio p)) := by simp [firstCpu]
    rw [← init_addTail hnew] at hadd
    exact hadd
  · have hgrp : update s.localRdyGrp 0 (s.localRdyGrp 0 ||| 1#8 <<< (prio p).val) 0 =
        s.localRdyGrp 0 ||| 1#8 <<< (prio p).val := update_self ..
    exact hgrp.trans (congrArg (· ||| 1#8 <<< (prio p).val) h.grp)

theorem Shows.pick (h : Shows c s) (hinv : Inv s q) (hpick : Sched.pickNext c = .ok (p, c')) :
    ∃ s', pickNext s = .ok s' ∧ Shows c' s' ∧ s'.created = s.created := by
  unfold Sched.pickNext at hpick
  extract_lets prio head at hpick
  split_ifs at hpick with hprio hempty
  have hnext : s.links.next (.head 0 (Fin.ofNat 8 prio.toNat)) = firstCpu (c.links.next head) :=
    (h.links head).1
  split at hpick
  · rename_i np cur hnp hcur
    rw [hnp] at hnext
    obtain ⟨xs, hfirst⟩ := hinv.first hnext
    have hdel := hinv.listDel (hfirst ▸ List.mem_cons_self)
    obtain ⟨mask, -, hret⟩ := ok_of_bind hpick
    cases hret
    let moved := (s.links.del (.proc p) .poison1 .poison2).addTail (.proc p)
      (.head 0 (Fin.ofNat 8 prio.toNat))
    refine ⟨{ s with links := moved }, ?_, ⟨?_, h.grp⟩, rfl⟩
    · unfold pickNext
      rw [h.grp]
      change (if prio = -1 then _ else _) = _
      rw [if_neg hprio]
      simp only [prio] at hnext hdel ⊢
      simp only [hnext, firstCpu, reduceCtorEq, if_false, hdel]
      rfl
    · have hdeleted := h.links.del firstCpu_injective (.proc p) .poison1 .poison2
      exact hdeleted.addTail firstCpu_injective (.proc p) head
  · cases hpick
  · cases hpick

/-- One operation of the scheduler is one or two of the system: a process is created right
before it is made ready. -/
theorem Shows.step {t t' : Sched.Cpu × List Nat} {a : Sched.Op} (h : Shows t.1 s)
    (hcreated : s.created = t.2) (hinv : Inv s q) (hok : Sched.ok t a)
    (hstep : Sched.step prio t a = some t') :
    ∃ s', Steps step ok s s' ∧ Shows t'.1 s' ∧ s'.created = t'.2 := by
  cases a with
  | ready p =>
    cases hstep
    have hnot : ¬ OnReadyList s p := by
      rw [hinv.onReadyList_iff]
      rintro ⟨i, hmem⟩
      obtain ⟨p', hp', hpp, -⟩ := hinv.queued i _ hmem
      obtain rfl := Node.proc.inj hpp
      exact hok (hcreated ▸ hp')
    have hinv' := hinv.create hnot (prio p).val
    have hnot' : ¬ OnReadyList (createProc s p (prio p).val) p := by
      rwa [hinv'.onReadyList_iff, ← hinv.onReadyList_iff]
    obtain ⟨s', hready, hshows, hcreated'⟩ := h.ready prio p
    refine ⟨s', ?_, hshows, by rw [hcreated', hcreated]⟩
    exact ((Steps.refl).tail (.create p (prio p).val) hnot rfl).tail (.ready p)
      ⟨List.mem_cons_self, hnot'⟩ (by rw [ReadyList.step, hready]; rfl)
  | pick =>
    obtain ⟨⟨p, c'⟩, hpick, rfl⟩ := Option.map_eq_some_iff.1 hstep
    obtain ⟨s', hpick', hshows, hcreated'⟩ := h.pick hinv (ok_of_toOption hpick)
    refine ⟨s', ?_, hshows, hcreated'.trans hcreated⟩
    exact (Steps.refl).tail .pick trivial (by rw [ReadyList.step, hpick']; rfl)

/-- **The runs of the scheduler** are histories: whatever `proc_ready` and `pick_next` do to
the lists of the current CPU from boot on, they do here. -/
theorem sched_history {links : Links Sched.Node} {root : Nat} {t : Sched.Cpu × List Nat}
    (h : Steps (Sched.step prio) Sched.ok (Sched.boot links root, []) t) (prio₀ : Nat → Int) :
    ∃ links' s, Embeds firstCpu links links' ∧ Steps step ok (initCpus links' prio₀) s ∧
      Shows t.1 s ∧ s.created = t.2 := by
  obtain ⟨links', hlinks⟩ := exists_embeds firstCpu_injective .null links
  refine ⟨links', ?_⟩
  have hrun : ∃ s, Steps step ok (initCpus links' prio₀) s ∧ Shows t.1 s ∧ s.created = t.2 := by
    refine h.invariant (P := fun t => ∃ s, Steps step ok (initCpus links' prio₀) s ∧
      Shows t.1 s ∧ s.created = t.2) ⟨_, .refl, shows_boot root hlinks prio₀, rfl⟩ ?_
    rintro t a t' ⟨s, hsteps, hshows, hcreated⟩ hok hstep
    obtain ⟨q, hinv⟩ := steps_inv hsteps
    obtain ⟨s', hmore, hshows', hcreated'⟩ := hshows.step hcreated hinv hok hstep
    exact ⟨s', hsteps.trans hmore, hshows', hcreated'⟩
  obtain ⟨s, hsteps, hshows, hcreated⟩ := hrun
  exact ⟨s, hlinks, hsteps, hshows, hcreated⟩

end

end SpringOs.ReadyList
