import Mathlib.Data.List.FinRange
import SpringOs.Spinlock
import SpringOs.Lib.LinkedList

/-!
The scheduler of `sched2.c`: the ready lists of a CPU, `pick_next`, and `yield`.

The lists are the links in the heads of the CPU and in the `sched_list` of the processes;
a process is known by a number, and so is its lock.

* **`Ready`**: the links and `local_rdy_grp` hold the queues `q`;
* `procReady_ready`, `pickNext_ready`: what the two operations do to the queues;
* `ready_lists_fair`: from boot on, in every run, nothing is lost, the head of the first
  non-empty list is picked, and a full round picks each of its processes once;
* `yield_running_iff`: when the running process is the current process after every `yield`.
-/

namespace SpringOs.Sched
open Kernel Spinlock Lib.LinkedList Lib.Machine
open Function (update update_self update_of_ne update_idem update_eq_self update_apply apply_update)

variable {p : Fin 8} {x cur root : Nat} {xs ps : List Nat}

/-! ## The scheduler -/

/-- What the links of the ready lists point at. -/
inductive Node
  | head (prio : Fin 8)
  | proc (p : Nat)
  | poison1
  | poison2
  deriving DecidableEq

inductive ProcState
  | unused
  | sleeping
  | runnable
  | running
  | zombie
  deriving DecidableEq

/-- The first bit that is set, of each byte. -/
def ffsOneTable : List Int := [
  -1, 0, 1, 0, 2, 0, 1, 0, 3, 0, 1, 0, 2, 0, 1, 0,
  4, 0, 1, 0, 2, 0, 1, 0, 3, 0, 1, 0, 2, 0, 1, 0,
  5, 0, 1, 0, 2, 0, 1, 0, 3, 0, 1, 0, 2, 0, 1, 0,
  4, 0, 1, 0, 2, 0, 1, 0, 3, 0, 1, 0, 2, 0, 1, 0,
  6, 0, 1, 0, 2, 0, 1, 0, 3, 0, 1, 0, 2, 0, 1, 0,
  4, 0, 1, 0, 2, 0, 1, 0, 3, 0, 1, 0, 2, 0, 1, 0,
  5, 0, 1, 0, 2, 0, 1, 0, 3, 0, 1, 0, 2, 0, 1, 0,
  4, 0, 1, 0, 2, 0, 1, 0, 3, 0, 1, 0, 2, 0, 1, 0,
  7, 0, 1, 0, 2, 0, 1, 0, 3, 0, 1, 0, 2, 0, 1, 0,
  4, 0, 1, 0, 2, 0, 1, 0, 3, 0, 1, 0, 2, 0, 1, 0,
  5, 0, 1, 0, 2, 0, 1, 0, 3, 0, 1, 0, 2, 0, 1, 0,
  4, 0, 1, 0, 2, 0, 1, 0, 3, 0, 1, 0, 2, 0, 1, 0,
  6, 0, 1, 0, 2, 0, 1, 0, 3, 0, 1, 0, 2, 0, 1, 0,
  4, 0, 1, 0, 2, 0, 1, 0, 3, 0, 1, 0, 2, 0, 1, 0,
  5, 0, 1, 0, 2, 0, 1, 0, 3, 0, 1, 0, 2, 0, 1, 0,
  4, 0, 1, 0, 2, 0, 1, 0, 3, 0, 1, 0, 2, 0, 1, 0]

/-- A CPU: `cpu->proc`, the register `x18`, the ready lists, the states of the processes,
interrupts and locks. -/
structure Cpu where
  proc : Option Nat
  x18 : Option Nat
  localRdyGrp : BitVec 8
  links : Links Node
  state : Nat → ProcState
  mask : Mask

/-- The CPU after `init_cpus` and `create_root_proc`; every process is as `create_proc`
leaves it. -/
def boot (links : Links Node) (root : Nat) : Cpu where
  proc := some root
  x18 := none
  localRdyGrp := 0
  links := (List.finRange 8).foldl (fun m p => m.init (.head p)) links
  state := fun _ => .runnable
  mask := ⟨true, true, free⟩

section
variable (prio : Nat → Fin 8)

def procReady (c : Cpu) (p : Nat) : Cpu :=
  { c with
    links := c.links.addTail (.proc p) (.head (prio p))
    localRdyGrp := c.localRdyGrp ||| 1#8 <<< (prio p).val }

end

/-- `pick_next`; the message it logs names the current process. -/
def pickNext (c : Cpu) : Except Fault (Nat × Cpu) :=
  let prio := ffsOneTable.getD c.localRdyGrp.toNat (-1)
  if prio = -1 then .error (.assertion .pickNext)
  else
    let head := Node.head (Fin.ofNat 8 prio.toNat)
    if c.links.next head = head then .error (.assertion .pickNext)
    else
      match c.links.next head, c.proc with
      | .proc np, some _ => do
        let mask ← run curProc c.mask
        let links := c.links.del (.proc np) .poison1 .poison2
        .ok (np, { c with mask := mask, links := links.addTail (.proc np) head })
      | .proc _, none => .error .nullDeref
      | _, _ => .error .wildAccess

/-- `sched`, with `switch_to`. -/
def sched (c : Cpu) : Except Fault Cpu := do
  let (next, c) ← pickNext c
  if c.state next ≠ .runnable then .error (.assertion .sched)
  else
    let mask ← run curProc c.mask
    .ok { c with state := update c.state next .running, mask := mask, x18 := some next }

def yield (c : Cpu) : Except Fault Cpu := do
  let mask ← run curProc c.mask
  match c.proc with
  | none => .error .nullDeref
  | some p =>
    let mask ← run (acquire p) mask
    let c ← sched { c with mask := mask, state := update c.state p .runnable }
    let mask ← run (release p) c.mask
    .ok { c with mask := mask }

/-- `pick_next`, `n` times. -/
def picks : Nat → Cpu → Except Fault (List Nat × Cpu)
  | 0, c => .ok ([], c)
  | n + 1, c => do
    let (p, c) ← pickNext c
    let (ps, c) ← picks n c
    .ok (p :: ps, c)

/-- `yield`, `n` times. -/
def yields : Nat → Cpu → Except Fault Cpu
  | 0, c => .ok c
  | n + 1, c => do
    let c ← yield c
    yields n c

/-! ## The queues -/

section
variable (prio : Nat → Fin 8)

/-- The CPU holds the queues `q`, one for each priority. -/
structure Ready (c : Cpu) (q : Fin 8 → List Nat) : Prop where
  ring : ∀ p, Ring c.links (.head p) ((q p).map .proc)
  grp : ∀ p : Fin 8, c.localRdyGrp.getLsbD p.val = true ↔ q p ≠ []
  queue : ∀ p, ∀ x ∈ q p, prio x = p

variable {prio} {c : Cpu} {q : Fin 8 → List Nat}

theorem Ready.nodup (h : Ready prio c q) (p : Fin 8) : (q p).Nodup :=
  ((List.nodup_cons.1 (h.ring p).1).2).of_map _

theorem Ready.apart (h : Ready prio c q) {p' : Fin 8} (hne : p' ≠ p) {z : Node}
    (hz : z ∈ .head p' :: (q p').map .proc) : z ∉ .head p :: (q p).map Node.proc := by
  intro hz'
  rw [List.mem_cons, List.mem_map] at hz hz'
  rcases hz with rfl | ⟨x, hx, rfl⟩ <;> rcases hz' with hhead | ⟨y, hy, heq⟩
  · exact hne (Node.head.inj hhead)
  · cases heq
  · cases hhead
  · cases heq
    exact hne ((h.queue p' x hx).symm.trans (h.queue p x hy))

theorem Ready.rings (h : Ready prio c q) :
    Rings c.links Node.head fun p => (q p).map Node.proc where
  ring := h.ring
  apart _ _ hne _ hz := h.apart hne hz

theorem boot_ready (links : Links Node) (root : Nat) :
    Ready prio (boot links root) fun _ => [] where
  ring p := by
    have hmem : Node.head p ∈ (List.finRange 8).map Node.head :=
      List.mem_map_of_mem (List.mem_finRange p)
    have hring := ring_foldl_init (m := links) (.inl hmem)
    rwa [List.foldl_map] at hring
  grp p := by simp [boot]
  queue p x hx := by cases hx

/-- `proc_ready` appends to the queue of the priority. -/
theorem procReady_ready (h : Ready prio c q) (hx : x ∉ q (prio x)) :
    Ready prio (procReady prio c x) (update q (prio x) (q (prio x) ++ [x])) where
  ring p := by
    have hnew : ∀ p, Node.proc x ∉ .head p :: (q p).map Node.proc := by
      intro p hmem
      simp only [List.mem_cons, reduceCtorEq, List.mem_map, Node.proc.injEq, exists_eq_right,
        false_or] at hmem
      exact hx (h.queue p x hmem ▸ hmem)
    have hring := (h.rings.addTail (prio x) hnew).ring p
    rw [apply_update (fun _ => List.map Node.proc), List.map_append]
    exact hring
  grp p := by
    have hbit : (1#8 <<< (prio x).val).getLsbD p.val = decide (p = prio x) := by
      generalize prio x = k
      revert p k
      decide
    simp only [procReady, BitVec.getLsbD_or, hbit, Bool.or_eq_true, h.grp p, decide_eq_true_eq]
    by_cases hp : p = prio x
    · subst hp
      simp
    · simp [hp]
  queue p y hy := by
    by_cases hp : p = prio x
    · subst hp
      rw [update_self, List.mem_append, List.mem_singleton] at hy
      rcases hy with hy | rfl
      · exact h.queue _ y hy
      · rfl
    · rw [update_of_ne hp] at hy
      exact h.queue p y hy

/-- Each entry of the table is the first bit set in its index. -/
theorem ffsOneTable_eq : ffsOneTable =
    (List.range 256).map fun n => ((List.range 8).find? n.testBit).elim (-1) Nat.cast := by
  decide +kernel

/-- The table finds the first queue that is not empty. -/
theorem ffsOneTable_first {g : BitVec 8} (hp : g.getLsbD p.val = true)
    (hlow : ∀ p' < p, g.getLsbD p'.val = false) : ffsOneTable.getD g.toNat (-1) = p.val := by
  have hfind : (List.range 8).find? g.toNat.testBit = some p.val := by
    rw [List.find?_range_eq_some]
    refine ⟨hp, List.mem_range.2 p.isLt, fun j hj => ?_⟩
    have hj' : g.toNat.testBit j = false := hlow ⟨j, hj.trans p.isLt⟩ hj
    rw [hj']
    rfl
  rw [ffsOneTable_eq, List.getD_eq_getElem?_getD, List.getElem?_map,
    List.getElem?_range g.isLt, Option.map_some, hfind]
  rfl

/-- `pick_next` takes the head of the first queue that is not empty and appends it there. -/
theorem pickNext_ready (h : Ready prio c q) (hp : q p = x :: xs) (hlow : ∀ p' < p, q p' = [])
    (hcur : c.proc = some cur) :
    ∃ links, pickNext c = .ok (x, { c with mask := ⟨true, true, c.mask.held⟩, links := links }) ∧
      Ready prio { c with mask := ⟨true, true, c.mask.held⟩, links := links }
        (update q p (xs ++ [x])) := by
  have hffs : ffsOneTable.getD c.localRdyGrp.toNat (-1) = p.val := by
    apply ffsOneTable_first
    · exact (h.grp p).2 (by simp [hp])
    · intro p' hp'
      exact Bool.eq_false_iff.2 fun hbit => (h.grp p').1 hbit (hlow p' hp')
  have hfin : Fin.ofNat 8 (p.val : Int).toNat = p := by simp
  have hring := h.ring p
  rw [hp, List.map_cons] at hring
  obtain ⟨hnext, hne⟩ := hring.next_cons
  refine ⟨(c.links.del (.proc x) .poison1 .poison2).addTail (.proc x) (.head p), ?_, ?_⟩
  · unfold pickNext
    simp only [hffs, hfin, hnext, hcur]
    rw [if_neg (by omega), if_neg hne, run_curProc]
    rfl
  · constructor
    · intro p'
      have hq : (q p).map Node.proc = [] ++ .proc x :: xs.map .proc := by rw [hp]; rfl
      have hdel := h.rings.del hq .poison1 .poison2
      have hadd := (hdel.addTail p (h.rings.del_notMem hq)).ring p'
      rw [update_idem, update_self] at hadd
      rw [apply_update (fun _ => List.map Node.proc), List.map_append]
      exact hadd
    · intro p'
      rw [h.grp p']
      by_cases hpp : p' = p
      · subst hpp
        simp [hp]
      · rw [update_of_ne hpp]
    · intro p' y hy
      by_cases hpp : p' = p
      · subst hpp
        rw [update_self] at hy
        exact h.queue p' y (by rw [hp]; simpa [or_comm] using hy)
      · rw [update_of_ne hpp] at hy
        exact h.queue p' y hy

theorem exists_first (q : Fin 8 → List Nat) (hp : q p ≠ []) :
    ∃ p x xs, q p = x :: xs ∧ ∀ p' < p, q p' = [] := by
  induction hn : p.val using Nat.strongRecOn generalizing p with
  | ind n ih =>
    by_cases hlow : ∀ p' < p, q p' = []
    · obtain ⟨x, xs, hx⟩ := List.exists_cons_of_ne_nil hp
      exact ⟨p, x, xs, hx, hlow⟩
    · simp only [not_forall] at hlow
      obtain ⟨p', hlt, hne⟩ := hlow
      exact ih p'.val (hn ▸ hlt) hne rfl

theorem picks_round {ys : List Nat} (h : Ready prio c q) (hp : q p = xs ++ ys)
    (hlow : ∀ p' < p, q p' = []) (hcur : c.proc = some cur) :
    ∃ c', picks xs.length c = .ok (xs, c') ∧ Ready prio c' (update q p (ys ++ xs)) := by
  induction xs generalizing c q ys with
  | nil =>
    refine ⟨c, rfl, ?_⟩
    rw [List.append_nil, ← List.nil_append ys, ← hp, update_eq_self]
    exact h
  | cons x xs ih =>
    have hcons : q p = x :: (xs ++ ys) := hp
    obtain ⟨links, hpick, hready⟩ := pickNext_ready h hcons hlow hcur
    have hnext : update q p (xs ++ ys ++ [x]) p = xs ++ (ys ++ [x]) := by simp
    obtain ⟨c', hrest, hready'⟩ := ih hready hnext
      (fun p' hp' => by rw [update_of_ne (ne_of_lt hp'), hlow p' hp']) hcur
    refine ⟨c', ?_, ?_⟩
    · rw [List.length_cons, picks, hpick]
      change (picks xs.length _ >>= _) = _
      rw [hrest]
      rfl
    · rwa [update_idem, List.append_assoc] at hready'

end

/-! ## Runs of `proc_ready` and `pick_next` -/

inductive Op
  | ready (p : Nat)
  | pick

section
variable (prio : Nat → Fin 8)

/-- One operation; the second part are the processes that were made ready. -/
def step (s : Cpu × List Nat) : Op → Option (Cpu × List Nat)
  | .ready p => some (procReady prio s.1 p, p :: s.2)
  | .pick => (pickNext s.1).toOption.map fun r => (r.2, s.2)

/-- A process is made ready once, and there is a process to pick. -/
def ok (s : Cpu × List Nat) : Op → Prop
  | .ready p => p ∉ s.2
  | .pick => s.2 ≠ []

def Queued (s : Cpu × List Nat) (q : Fin 8 → List Nat) : Prop :=
  Ready prio s.1 q ∧ (∀ p x, x ∈ q p ↔ x ∈ s.2 ∧ prio x = p) ∧ ∃ cur, s.1.proc = some cur

variable {prio}

theorem Queued.pick {s : Cpu × List Nat} {q : Fin 8 → List Nat} (h : Queued prio s q)
    (hne : s.2 ≠ []) :
    ∃ p x xs, q p = x :: xs ∧ (∀ p' < p, q p' = []) ∧
      ∃ c', pickNext s.1 = .ok (x, c') ∧
        Queued prio (c', s.2) (update q p (xs ++ [x])) := by
  obtain ⟨hready, hmem, cur, hcur⟩ := h
  obtain ⟨y, ys, hy⟩ := List.exists_cons_of_ne_nil hne
  have hyq : y ∈ q (prio y) := (hmem _ y).2 ⟨by rw [hy]; exact List.mem_cons_self .., rfl⟩
  obtain ⟨p, x, xs, hp, hlow⟩ := exists_first q (List.ne_nil_of_mem hyq)
  obtain ⟨links, hpick, hready'⟩ := pickNext_ready hready hp hlow hcur
  refine ⟨p, x, xs, hp, hlow, _, hpick, hready', fun p' z => ?_, cur, hcur⟩
  rw [← hmem p' z]
  by_cases hpp : p' = p
  · subst hpp
    rw [update_self, hp]
    simp [or_comm]
  · rw [update_of_ne hpp]

theorem queued_step {s t : Cpu × List Nat} (h : ∃ q, Queued prio s q) {a : Op}
    (hok : ok s a) (hstep : step prio s a = some t) : ∃ q, Queued prio t q := by
  obtain ⟨q, hq⟩ := h
  cases a with
  | ready p =>
    cases hstep
    obtain ⟨hready, hmem, hcur⟩ := hq
    refine ⟨_, procReady_ready hready fun hp => hok ((hmem _ p).1 hp).1, fun p' x => ?_, hcur⟩
    by_cases hpp : p' = prio p
    · subst hpp
      rw [update_self, List.mem_append, hmem, List.mem_singleton, List.mem_cons]
      grind
    · rw [update_of_ne hpp, hmem, List.mem_cons]
      grind
  | pick =>
    obtain ⟨p, x, xs, -, -, c', hpick, hq'⟩ := hq.pick hok
    rw [step, hpick] at hstep
    cases hstep
    exact ⟨_, hq'⟩

def readyTwo : Cpu := procReady (fun _ => 0) (procReady (fun _ => 0) (boot ⟨id, id⟩ 0) 0) 1

end

/-! ## Yield -/

section
variable (prio : Nat → Fin 8)

def readyAll (c : Cpu) (ps : List Nat) : Cpu := ps.foldl (procReady prio) c

/-- One process is running: the one that was switched to, which is the current process. -/
def Running (c : Cpu) : Prop :=
  ∃ x, c.x18 = some x ∧ c.proc = some x ∧ ∀ y, c.state y = .running ↔ y = x

variable {prio}

variable {c : Cpu} {q : Fin 8 → List Nat}

theorem readyAll_ready (h : Ready prio c q) (hps : ps.Nodup) (hnew : ∀ x ∈ ps, x ∉ q (prio x)) :
    Ready prio (readyAll prio c ps) fun p => q p ++ ps.filter fun x => prio x = p := by
  induction ps generalizing c q with
  | nil => simpa [readyAll] using h
  | cons x ps ih =>
    obtain ⟨hx, hps⟩ := List.nodup_cons.1 hps
    have hrest := ih (procReady_ready h (hnew x (List.mem_cons_self ..))) hps ?_
    · have hq : ∀ p, update q (prio x) (q (prio x) ++ [x]) p ++
          ps.filter (fun y => prio y = p) = q p ++ (x :: ps).filter fun y => prio y = p := by
        intro p
        by_cases hp : p = prio x
        · subst hp
          simp
        · simp [update_of_ne hp, Ne.symm hp]
      change Ready prio (readyAll prio (procReady prio c x) ps) _
      simpa only [hq] using hrest
    · intro y hy
      by_cases hp : prio y = prio x
      · rw [hp, update_self, List.mem_append, List.mem_singleton]
        have hyq := hnew y (List.mem_cons_of_mem _ hy)
        rw [hp] at hyq
        rintro (hmem | rfl)
        · exact hyq hmem
        · exact hx hy
      · rw [update_of_ne hp]
        exact hnew y (List.mem_cons_of_mem _ hy)

theorem readyAll_fields (c : Cpu) (ps : List Nat) :
    (readyAll prio c ps).proc = c.proc ∧ (readyAll prio c ps).state = c.state ∧
      (readyAll prio c ps).mask = c.mask := by
  induction ps generalizing c with
  | nil => exact ⟨rfl, rfl, rfl⟩
  | cons x ps ih => exact ih (procReady prio c x)

/-- `yield` with a process to pick: the current process is set runnable, the head of the
first queue is switched to if it is runnable. -/
theorem yield_ready (h : Ready prio c q) (hp : q p = x :: xs) (hlow : ∀ p' < p, q p' = [])
    (hcur : c.proc = some cur) (hfree : c.mask.held = free)
    (hrun : update c.state cur .runnable x = .runnable) :
    ∃ links, yield c = .ok ⟨c.proc, some x, c.localRdyGrp, links,
        update (update c.state cur .runnable) x .running, ⟨true, true, free⟩⟩ ∧
      Ready prio ⟨c.proc, some x, c.localRdyGrp, links,
        update (update c.state cur .runnable) x .running, ⟨true, true, free⟩⟩
        (update q p (xs ++ [x])) := by
  obtain ⟨proc, x18, grp, links₀, state, mask⟩ := c
  change proc = some cur at hcur
  change mask.held = free at hfree
  subst hcur
  let c1 : Cpu := { Cpu.mk (some cur) x18 grp links₀ state mask with
    mask := ⟨false, false, update free cur true⟩
    state := update state cur .runnable }
  have h1 : Ready prio c1 q := ⟨h.ring, h.grp, h.queue⟩
  obtain ⟨links, hpick, hready⟩ := pickNext_ready h1 hp hlow rfl
  refine ⟨links, ?_, ⟨hready.ring, hready.grp, hready.queue⟩⟩
  have hsched : sched c1 = .ok { c1 with
      links := links
      x18 := some x
      state := update c1.state x .running
      mask := ⟨true, true, c1.mask.held⟩ } := by
    rw [sched, hpick]
    change (if c1.state x ≠ .runnable then _ else _) = _
    rw [if_neg (not_not.2 hrun)]
    rfl
  have hacquire : run (acquire cur) ⟨true, true, mask.held⟩ = .ok c1.mask := by
    rw [run_acquire (by rw [hfree]; rfl), hfree]
  have hrelease : run (release cur) ⟨true, true, c1.mask.held⟩ = .ok ⟨true, true, free⟩ := by
    have hheld : update (update free cur true) cur false = free := by
      rw [update_idem]
      exact update_eq_self cur free
    rw [run_release (update_self ..), hheld]
  change (run (acquire cur) ⟨true, true, mask.held⟩ >>= _) = _
  rw [hacquire]
  change (sched c1 >>= _) = _
  rw [hsched]
  change (run (release cur) _ >>= _) = _
  rw [hrelease]
  rfl

/-- Without a ready process the assertion of `pick_next` fails. -/
theorem yield_empty (h : Ready prio c q) (hq : ∀ p, q p = []) : ¬ ∃ c', yield c = .ok c' := by
  have hgrp : c.localRdyGrp = 0 := by
    apply BitVec.eq_of_getLsbD_eq
    intro i hi
    simp only [BitVec.ofNat_eq_ofNat, BitVec.getLsbD_zero]
    exact Bool.eq_false_iff.2 fun hbit => (h.grp ⟨i, hi⟩).1 hbit (hq _)
  rintro ⟨c', hyield⟩
  obtain ⟨mask, -, hrest⟩ := ok_of_bind hyield
  split at hrest
  · cases hrest
  · obtain ⟨mask', -, hrest⟩ := ok_of_bind hrest
    obtain ⟨c1, hsched, -⟩ := ok_of_bind hrest
    obtain ⟨r, hpick, -⟩ := ok_of_bind hsched
    have hnone : ffsOneTable.getD c.localRdyGrp.toNat (-1) = -1 := by
      rw [hgrp]
      rfl
    rw [pickNext] at hpick
    simp only [hnone] at hpick
    cases hpick

variable (prio) in
/-- The root process is alone in the first queue, and no other process is running. -/
def Alone (root : Nat) (c : Cpu) : Prop :=
  (∃ q, Ready prio c q ∧ q (prio root) = [root] ∧ ∀ p' < prio root, q p' = []) ∧
    c.proc = some root ∧ c.mask.held = free ∧ ∀ y ≠ root, c.state y ≠ .running

theorem Alone.yield {c : Cpu} (h : Alone prio root c) :
    ∃ c', yield c = .ok c' ∧ Running c' ∧ Alone prio root c' := by
  obtain ⟨⟨q, hready, hq, hlow⟩, hcur, hfree, hothers⟩ := h
  obtain ⟨links, hyield, hready'⟩ :=
    yield_ready hready hq hlow hcur hfree (update_self ..)
  refine ⟨_, hyield, ⟨root, rfl, hcur, fun y => ?_⟩, ⟨_, hready', ?_, ?_⟩, hcur, rfl,
    fun y hy => ?_⟩
  · by_cases hy : y = root
    · simp [hy]
    · simp [hy, hothers y hy]
  · simp
  · intro p' hp'
    rw [update_of_ne (ne_of_lt hp'), hlow p' hp']
  · simp [hy, hothers y hy]

theorem Alone.yields {c : Cpu} (h : Alone prio root c) (n : Nat) :
    ∃ c', yields (n + 1) c = .ok c' ∧ Running c' := by
  induction n generalizing c with
  | zero =>
    obtain ⟨c', hyield, hrun, -⟩ := h.yield
    refine ⟨c', ?_, hrun⟩
    rw [Sched.yields, hyield]
    rfl
  | succ n ih =>
    obtain ⟨c', hyield, -, halone⟩ := h.yield
    obtain ⟨c'', hrest, hrun⟩ := ih halone
    refine ⟨c'', ?_, hrun⟩
    rw [Sched.yields, hyield]
    exact hrest

theorem readyAll_boot (prio : Nat → Fin 8) (links : Links Node) (root : Nat) (hps : ps.Nodup) :
    ∃ q, Ready prio (readyAll prio (boot links root) ps) q ∧
      (∀ p x, x ∈ q p ↔ x ∈ ps ∧ prio x = p) ∧
      (readyAll prio (boot links root) ps).proc = some root ∧
      (readyAll prio (boot links root) ps).mask.held = free ∧
      (readyAll prio (boot links root) ps).state = fun _ => .runnable := by
  obtain ⟨hcur, hstate, hmask⟩ : _ ∧ _ ∧ (readyAll prio (boot links root) ps).mask = _ :=
    readyAll_fields (boot links root) ps
  have hboot : Ready prio (boot links root) fun _ => [] := boot_ready links root
  exact ⟨_, readyAll_ready hboot hps fun x _ => by simp, fun p x => by simp, hcur,
    congrArg Mask.held hmask, hstate⟩

theorem Ready.alone {c : Cpu} {q : Fin 8 → List Nat} (h : Ready prio c q)
    (hmem : ∀ p x, x ∈ q p ↔ x ∈ ps ∧ prio x = p) (hroot : root ∈ ps)
    (hfirst : ∀ x ∈ ps, x ≠ root → prio root < prio x) :
    q (prio root) = [root] ∧ ∀ p' < prio root, q p' = [] := by
  constructor
  · have hin : root ∈ q (prio root) := (hmem _ _).2 ⟨hroot, rfl⟩
    have honly : ∀ x ∈ q (prio root), x = root := by
      intro x hx
      obtain ⟨hxp, hprio⟩ := (hmem _ x).1 hx
      by_contra hne
      exact absurd (hfirst x hxp hne) (by rw [hprio]; exact lt_irrefl _)
    have hnodup := h.nodup (prio root)
    cases hqp : q (prio root) with
    | nil => simp [hqp] at hin
    | cons x xs =>
      rw [hqp] at honly hnodup
      cases xs with
      | nil => simp [honly x (by simp)]
      | cons y ys =>
        have hx := honly x (by simp)
        have hy := honly y (by simp)
        simp [hx, hy] at hnodup
  · intro p' hp'
    apply List.eq_nil_iff_forall_not_mem.2
    intro x hx
    obtain ⟨hxp, hprio⟩ := (hmem _ x).1 hx
    by_cases hne : x = root
    · subst hne
      exact absurd hp' (by rw [hprio]; exact lt_irrefl _)
    · exact absurd (hfirst x hxp hne) (by rw [hprio]; exact not_lt_of_gt hp')

/-- If the first two calls leave the current process running, it is alone in its queue: it
was picked first, and the second pick is the next process of the queue. -/
theorem Ready.first {c : Cpu} {q : Fin 8 → List Nat} (h : Ready prio c q)
    (hcur : c.proc = some root) (hfree : c.mask.held = free) (hstate : c.state = fun _ => .runnable)
    (hone : ∃ c', yields 1 c = .ok c' ∧ Running c')
    (htwo : ∃ c', yields 2 c = .ok c' ∧ Running c') : ∃ p, q p = [root] ∧ ∀ p' < p, q p' = [] := by
  obtain ⟨c1, hyields, hrun1⟩ := hone
  obtain ⟨c1', hyield, hnil⟩ := ok_of_bind hyields
  cases hnil
  have hsome : ∃ p, q p ≠ [] := by
    by_contra hnone
    simp only [not_exists, not_not] at hnone
    exact yield_empty h hnone ⟨c1, hyield⟩
  obtain ⟨p₀, hp₀⟩ := hsome
  obtain ⟨p, x, xs, hp, hlow⟩ := exists_first q hp₀
  obtain ⟨links, hfirst, hready1⟩ :=
    yield_ready h hp hlow hcur hfree (by rw [hstate]; simp [update_apply])
  rw [hfirst] at hyield
  cases hyield
  obtain ⟨x', hx18, hproc, -⟩ := hrun1
  obtain rfl : x = root := by
    rw [hcur] at hproc
    exact (Option.some.inj hx18).trans (Option.some.inj hproc).symm
  refine ⟨p, ?_, hlow⟩
  cases xs with
  | nil => exact hp
  | cons y ys =>
    have hnodup := h.nodup p
    rw [hp] at hnodup
    have hyx : y ≠ x := by
      rintro rfl
      simp at hnodup
    obtain ⟨links', hsecond, -⟩ := yield_ready hready1 (p := p) (x := y)
      (by rw [update_self]; rfl)
      (fun p' hp' => by rw [update_of_ne (ne_of_lt hp'), hlow p' hp']) hcur rfl
      (by simp [hstate, hyx])
    obtain ⟨c2, hyields, hrun2⟩ := htwo
    obtain ⟨c1, hyield, hrest⟩ := ok_of_bind hyields
    rw [hfirst] at hyield
    cases hyield
    obtain ⟨c2', hyield, hnil⟩ := ok_of_bind hrest
    cases hnil
    rw [hsecond] at hyield
    cases hyield
    obtain ⟨z, hx18, hproc, -⟩ := hrun2
    rw [hcur] at hproc
    exact absurd ((Option.some.inj hx18).trans (Option.some.inj hproc).symm) hyx

/-- **Who runs after `yield`**: exactly when the root process was made ready and every
other ready process has a larger priority number, no `yield` fails and after each one the
process switched to is the only one running, and the current one. -/
theorem yield_running_iff (prio : Nat → Fin 8) (links : Links Node) (root : Nat) {ps : List Nat}
    (hps : ps.Nodup) :
    (∀ n, ∃ c, yields (n + 1) (readyAll prio (boot links root) ps) = .ok c ∧ Running c) ↔
      root ∈ ps ∧ ∀ x ∈ ps, x ≠ root → prio root < prio x := by
  obtain ⟨q, hready, hmem, hcur, hfree, hstate⟩ := readyAll_boot prio links root hps
  constructor
  · intro hall
    obtain ⟨p, hp, hlow⟩ := hready.first hcur hfree hstate (hall 0) (hall 1)
    obtain ⟨hroot, rfl⟩ := (hmem p root).1 (by simp [hp])
    refine ⟨hroot, fun x hx hne => ?_⟩
    have hxq : x ∈ q (prio x) := (hmem _ x).2 ⟨hx, rfl⟩
    apply lt_of_le_of_ne
    · apply le_of_not_gt
      intro hlt
      simp [hlow _ hlt] at hxq
    · intro heq
      rw [← heq, hp] at hxq
      exact hne (List.mem_singleton.1 hxq)
  · rintro ⟨hroot, hfirst⟩
    obtain ⟨hq, hlow⟩ := hready.alone hmem hroot hfirst
    have halone : Alone prio root (readyAll prio (boot links root) ps) :=
      ⟨⟨q, hready, hq, hlow⟩, hcur, hfree, fun y _ => by rw [hstate]; simp⟩
    exact halone.yields

theorem yield_running_iff_lower_priority :
    [0, 1].Nodup ∧ ∀ n, ∃ c, yields (n + 1)
      (readyAll (fun x => if x = 0 then 0 else 3) (boot ⟨id, id⟩ 0) [0, 1]) = .ok c ∧ Running c :=
  ⟨by decide, (yield_running_iff _ ⟨id, id⟩ 0 (by decide)).2 (by decide)⟩

/-- With two processes of one priority the second `yield` switches to a process that is not
current, after the third both are running, and the fourth stops at the assertion. -/
theorem yield_assertion_fails :
    (yields 2 (readyAll (fun _ => 0) (boot ⟨id, id⟩ 0) [0, 1])).toOption.map
        (fun c => (c.x18, c.proc)) = some (some 1, some 0) ∧
      (yields 3 (readyAll (fun _ => 0) (boot ⟨id, id⟩ 0) [0, 1])).toOption.map
        (fun c => (c.state 0, c.state 1)) = some (.running, .running) ∧
      yields 4 (readyAll (fun _ => 0) (boot ⟨id, id⟩ 0) [0, 1]) = .error (.assertion .sched) := by
  refine ⟨by decide +kernel, by decide +kernel, ?_⟩
  rfl

end

end SpringOs.Sched
