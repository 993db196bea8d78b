import Mathlib.Data.List.Nodup
import SpringOs.Kernel
import SpringOs.Lib.Machine

/-!
The function tracer of the kernel monitor, `functrace.c`, over traces of calls.

Every instrumented function calls `ftrace_start` when it is entered and `ftrace_end` when it
is left, with its own address. Instrumented functions that the tracer calls itself find
`in_functrace` set and return at once, so each of the two is one step here. `kalloc` has the
memory for a record: for 24 bytes it returns an object or stops the kernel.

* **`ftraceStart`**, **`ftraceEnd`**: the functions;
* `Spec`: the calls that are open, and what the tracer should know about them;
* `Handled`, `Popped`: what `ftrace_end` should do at the end of a call;
* `functrace_balanced_iff`: it does so exactly if every call that ended was traced at both
  of its ends or at neither.
-/

namespace SpringOs.Functrace
open Kernel Lib.Machine

/-! ## The tracer -/

/-- `struct ftrace_half`. `entry` is history: the number of the entry that made it. -/
structure FtraceHalf where
  pc : Nat
  tickStart : Nat
  entry : Nat
  deriving DecidableEq, Repr

/-- The members of `cur_state` that switch the tracer. -/
structure KmState where
  returnable : Bool
  ftraceDisabled : Bool
  deriving DecidableEq, Repr

structure Flags where
  functraceDisabled : Bool
  curState : KmState
  deriving DecidableEq, Repr

def functraceEnable (f : Flags) : Flags := { f with functraceDisabled := false }

def functraceDisable (f : Flags) : Flags := { f with functraceDisabled := true }

def kmonSync (f : Flags) (returnable : Bool) : Flags :=
  { f with curState := ⟨returnable, f.functraceDisabled⟩ }

/-- The command `ft` with an argument. -/
def execFt (f : Flags) (enable : Bool) : Flags :=
  { f with curState := { f.curState with ftraceDisabled := !enable } }

def kmonReturn (f : Flags) : Flags :=
  if f.curState.returnable = false then f
  else if f.curState.ftraceDisabled = false then functraceEnable f
  else f

def ftraceHalfCallAdd (halfs : List FtraceHalf) (pc tickStart entry : Nat) : List FtraceHalf :=
  ⟨pc, tickStart, entry⟩ :: halfs

/-- `ftrace_half_call_pop`: the first record of the function, and the list without it. -/
def ftraceHalfCallPop (pc : Nat) : List FtraceHalf → Option FtraceHalf × List FtraceHalf
  | [] => (none, [])
  | fh :: rest =>
    if fh.pc = pc then (some fh, rest)
    else
      let r := ftraceHalfCallPop pc rest
      (r.1, fh :: r.2)

/-- The list `head_half_calls`, and `in_functrace`. -/
structure Tracer where
  halfs : List FtraceHalf
  inFunctrace : Bool
  deriving DecidableEq, Repr

def ftraceStart (f : Flags) (t : Tracer) (pc tick entry : Nat) : Tracer :=
  if f.functraceDisabled || t.inFunctrace then t
  else { t with halfs := ftraceHalfCallAdd t.halfs pc tick entry }

/-- `ftrace_end` up to `kfree(fh)`, with the record it frees; what follows writes the trace
buffer. -/
def ftraceEnd (f : Flags) (t : Tracer) (pc : Nat) : Except Fault (Option FtraceHalf × Tracer) :=
  if f.functraceDisabled || t.inFunctrace then .ok (none, t)
  else
    match ftraceHalfCallPop pc t.halfs with
    | (none, _) => .error (.assertion .ftraceEnd)
    | (some fh, halfs) => .ok (some fh, { t with halfs := halfs })

/-! ## Traces -/

/-- What happens: a function is entered or the innermost one left, the tracer is switched, or
the monitor saves, changes or restores the switch. `kmon_main` disables the tracer. -/
inductive Event
  | enter (pc tick : Nat)
  | exit
  | enable
  | disable
  | sync (returnable : Bool)
  | ft (enable : Bool)
  | resume
  deriving DecidableEq, Repr

/-- No function is left that was not entered; `n` are open at first. -/
def WellNested : Nat → List Event → Prop
  | _, [] => True
  | n, .enter _ _ :: es => WellNested (n + 1) es
  | 0, .exit :: _ => False
  | n + 1, .exit :: es => WellNested n es
  | n, _ :: es => WellNested n es

def flagStep (f : Flags) : Event → Flags
  | .enable => functraceEnable f
  | .disable => functraceDisable f
  | .sync returnable => kmonSync f returnable
  | .ft enable => execFt f enable
  | .resume => kmonReturn f
  | _ => f

/-- A call that has not ended. `traced`: the tracer was on when it was entered; `left`: the
records of calls made inside it whose entry was traced and whose exit was not. -/
structure Activation where
  half : FtraceHalf
  traced : Bool
  left : List FtraceHalf

/-- The open calls, innermost first, and the records left by calls outside of all of them. -/
structure Spec where
  flags : Flags
  calls : List Activation
  left : List FtraceHalf
  entries : Nat

def Spec.on (s : Spec) : Bool := !s.flags.functraceDisabled

/-- The records `ftrace_end` leaves behind when the call ends: the tracer is `on` or off. -/
def Activation.rest (a : Activation) (on : Bool) : List FtraceHalf :=
  a.left ++ if a.traced && !on then [a.half] else []

/-- The innermost call ends, and what it leaves goes to the call around it. -/
def Spec.leave (s : Spec) : Spec :=
  match s.calls with
  | [] => s
  | [a] => { s with calls := [], left := a.rest s.on ++ s.left }
  | a :: b :: calls => { s with calls := { b with left := a.rest s.on ++ b.left } :: calls }

def specStep (s : Spec) : Event → Spec
  | .enter pc tick =>
    { s with
      calls := ⟨⟨pc, tick, s.entries⟩, s.on, []⟩ :: s.calls
      entries := s.entries + 1 }
  | .exit => s.leave
  | e => { s with flags := flagStep s.flags e }

structure Sys where
  tracer : Tracer
  spec : Spec

/-- What `ftrace_end` does at the end of the innermost call. -/
def endCall (s : Sys) : Except Fault (Option FtraceHalf × Tracer) :=
  match s.spec.calls with
  | [] => .ok (none, s.tracer)
  | a :: _ => ftraceEnd s.spec.flags s.tracer a.half.pc

def step (s : Sys) : Event → Except Fault Sys
  | .enter pc tick =>
    .ok ⟨ftraceStart s.spec.flags s.tracer pc tick s.spec.entries, specStep s.spec (.enter pc tick)⟩
  | .exit => do
    let (_, tracer) ← endCall s
    .ok ⟨tracer, specStep s.spec .exit⟩
  | e => .ok ⟨s.tracer, specStep s.spec e⟩

def boot : Sys := ⟨⟨[], false⟩, ⟨⟨true, ⟨false, false⟩⟩, [], [], 0⟩⟩

/-! ## What should happen -/

/-- A traced exit pops the record of its own entry if that was traced too; otherwise the exit
is ignored. -/
def Popped (s : Sys) : Event → Prop
  | .exit => ∀ a calls, s.spec.calls = a :: calls → ∃ tracer,
      endCall s = .ok (if a.traced && s.spec.on then some a.half else none, tracer)
  | _ => True

def Handled (s : Sys) : Event → Prop
  | .exit => ∀ a calls, s.spec.calls = a :: calls → ∃ tracer,
      endCall s = .ok (if a.traced && s.spec.on then some a.half else none, tracer) ∧
        ∀ fh ∈ tracer.halfs, fh.entry ≠ a.half.entry
  | _ => True

/-- Every event of the trace is treated so, from `s` on. -/
def Throughout (P : Sys → Event → Prop) : Sys → List Event → Prop
  | _, [] => True
  | s, e :: es => P s e ∧ ∀ t, step s e = .ok t → Throughout P t es

/-- The call that ends was traced at its entry exactly if it is at its exit. -/
def Balanced (s : Spec) : Event → Prop
  | .exit => ∀ a calls, s.calls = a :: calls → a.traced = s.on
  | _ => True

/-- If the exit is traced, so was the entry, and no call of the same function inside it was
traced at its entry only. -/
def Matched (s : Spec) : Event → Prop
  | .exit => ∀ a calls, s.calls = a :: calls → s.on = true →
      a.traced = true ∧ ∀ fh ∈ a.left, fh.pc ≠ a.half.pc
  | _ => True

/-! ## The list of records -/

theorem pop_own {pc : Nat} {l : List FtraceHalf} (hl : ∀ fh ∈ l, fh.pc ≠ pc) {own : FtraceHalf}
    (hown : own.pc = pc) (r : List FtraceHalf) :
    ftraceHalfCallPop pc (l ++ own :: r) = (some own, l ++ r) := by
  induction l with
  | nil => simp [ftraceHalfCallPop, hown]
  | cons fh l ih =>
    obtain ⟨hfh, hl⟩ := List.forall_mem_cons.1 hl
    simp [ftraceHalfCallPop, hfh, ih hl]

theorem pop_front {pc : Nat} {l : List FtraceHalf} (hl : ¬ ∀ fh ∈ l, fh.pc ≠ pc)
    (r : List FtraceHalf) : ∃ fh ∈ l, (ftraceHalfCallPop pc (l ++ r)).1 = some fh := by
  induction l with
  | nil => simp at hl
  | cons fh l ih =>
    by_cases hfh : fh.pc = pc
    · exact ⟨fh, List.mem_cons_self, by simp [ftraceHalfCallPop, hfh]⟩
    · obtain ⟨gh, hgh, hpop⟩ := ih fun hall => hl (List.forall_mem_cons.2 ⟨hfh, hall⟩)
      exact ⟨gh, List.mem_cons_of_mem _ hgh, by simp [ftraceHalfCallPop, hfh, hpop]⟩

/-- The records of the traced calls that are open, and those left behind inside them. -/
def pending (calls : List Activation) (left : List FtraceHalf) : List FtraceHalf :=
  calls.flatMap (fun a => a.left ++ if a.traced then [a.half] else []) ++ left

def ids (calls : List Activation) (left : List FtraceHalf) : List Nat :=
  calls.flatMap (fun a => a.left.map FtraceHalf.entry ++ [a.half.entry]) ++
    left.map FtraceHalf.entry

theorem pending_cons (a : Activation) (calls : List Activation) (left : List FtraceHalf) :
    pending (a :: calls) left =
      a.left ++ ((if a.traced then [a.half] else []) ++ pending calls left) := by
  simp [pending]

theorem ids_cons (a : Activation) (calls : List Activation) (left : List FtraceHalf) :
    ids (a :: calls) left = a.left.map FtraceHalf.entry ++ a.half.entry :: ids calls left := by
  simp [ids]

variable {s : Spec} {a : Activation} {calls : List Activation}

theorem pending_leave (h : s.calls = a :: calls) :
    pending s.leave.calls s.leave.left = a.rest s.on ++ pending calls s.left := by
  unfold Spec.leave
  cases calls with
  | nil => simp [h, pending]
  | cons b calls => simp [h, pending_cons]

theorem ids_leave (h : s.calls = a :: calls) :
    ids s.leave.calls s.leave.left =
      (a.rest s.on).map FtraceHalf.entry ++ ids calls s.left := by
  unfold Spec.leave
  cases calls with
  | nil => simp [h, ids]
  | cons b calls => simp [h, ids_cons]

theorem leave_entries (s : Spec) : s.leave.entries = s.entries := by
  unfold Spec.leave
  split <;> rfl

theorem leave_length (h : s.calls = a :: calls) : s.leave.calls.length = calls.length := by
  unfold Spec.leave
  cases calls with
  | nil => simp [h]
  | cons b calls => simp [h]

theorem entry_mem_ids {left : List FtraceHalf} {fh : FtraceHalf} (h : fh ∈ pending calls left) :
    fh.entry ∈ ids calls left := by
  induction calls with
  | nil =>
    simp only [pending, ids, List.flatMap_nil, List.nil_append] at h ⊢
    exact List.mem_map_of_mem h
  | cons a calls ih =>
    rw [pending_cons, List.mem_append, List.mem_append] at h
    rw [ids_cons, List.mem_append, List.mem_cons]
    rcases h with h | h | h
    · exact .inl (List.mem_map_of_mem h)
    · split at h
      · obtain rfl := List.mem_singleton.1 h
        exact .inr (.inl rfl)
      · cases h
    · exact .inr (.inr (ih h))

/-! ## The invariant -/

structure Inv (s : Sys) : Prop where
  idle : s.tracer.inFunctrace = false
  halfs : s.tracer.halfs = pending s.spec.calls s.spec.left
  nodup : (ids s.spec.calls s.spec.left).Nodup
  fresh : ∀ i ∈ ids s.spec.calls s.spec.left, i < s.spec.entries

theorem boot_inv : Inv boot :=
  ⟨rfl, rfl, by simp [boot, ids], by simp [boot, ids]⟩

variable {s : Sys} {a : Activation} {calls : List Activation}

theorem endCall_off (hcalls : s.spec.calls = a :: calls) (hoff : s.spec.on = false) :
    endCall s = .ok (none, s.tracer) := by
  have hdis : s.spec.flags.functraceDisabled = true := by simpa [Spec.on] using hoff
  simp [endCall, hcalls, ftraceEnd, hdis]

section

variable (h : Inv s) (hcalls : s.spec.calls = a :: calls)
include h hcalls

theorem Inv.endCall_on (hon : s.spec.on = true) :
    endCall s = match ftraceHalfCallPop a.half.pc s.tracer.halfs with
      | (none, _) => .error (.assertion .ftraceEnd)
      | (some fh, halfs) => .ok (some fh, { s.tracer with halfs := halfs }) := by
  have hdis : s.spec.flags.functraceDisabled = false := by simpa [Spec.on] using hon
  simp [endCall, hcalls, ftraceEnd, hdis, h.idle]

/-- The record of the call itself is found where none of its function lies in front. -/
theorem Inv.endCall_own (hon : s.spec.on = true) (htraced : a.traced = true)
    (hleft : ∀ fh ∈ a.left, fh.pc ≠ a.half.pc) :
    endCall s = .ok (some a.half, ⟨a.left ++ pending calls s.spec.left, false⟩) := by
  have hhalfs : s.tracer.halfs = a.left ++ a.half :: pending calls s.spec.left := by
    rw [h.halfs, hcalls, pending_cons, htraced]
    rfl
  rw [h.endCall_on hcalls hon, hhalfs, pop_own hleft rfl, ← h.idle]

/-- A traced exit pops something or stops the kernel. -/
theorem Inv.endCall_ne_none (hon : s.spec.on = true) (tracer : Tracer) :
    endCall s ≠ .ok (none, tracer) := by
  rw [h.endCall_on hcalls hon]
  split
  · simp
  · simp

/-- **The record popped** is the right one exactly if the call is matched. -/
theorem popped_iff : Popped s .exit ↔ Matched s.spec .exit := by
  have hpop : Popped s .exit ↔ ∃ tracer,
      endCall s = .ok (if a.traced && s.spec.on then some a.half else none, tracer) := by
    simp only [Popped, hcalls, List.cons.injEq]
    exact ⟨fun hp => hp a calls ⟨rfl, rfl⟩, fun hp b _ hb => hb.1 ▸ hp⟩
  have hmatch : Matched s.spec .exit ↔
      (s.spec.on = true → a.traced = true ∧ ∀ fh ∈ a.left, fh.pc ≠ a.half.pc) := by
    simp only [Matched, hcalls, List.cons.injEq]
    exact ⟨fun hm => hm a calls ⟨rfl, rfl⟩, fun hm b _ hb => hb.1 ▸ hm⟩
  rw [hpop, hmatch]
  cases hon : s.spec.on with
  | false =>
    rw [endCall_off hcalls hon]
    simp
  | true =>
    simp only [Bool.and_true, true_implies]
    cases htraced : a.traced with
    | false =>
      refine iff_of_false ?_ (by simp)
      rintro ⟨tracer, hend⟩
      exact h.endCall_ne_none hcalls hon tracer hend
    | true =>
      by_cases hleft : ∀ fh ∈ a.left, fh.pc ≠ a.half.pc
      · exact iff_of_true ⟨_, h.endCall_own hcalls hon htraced hleft⟩ ⟨rfl, hleft⟩
      · refine iff_of_false ?_ (fun hm => hleft hm.2)
        rintro ⟨tracer, hend⟩
        -- the record in front is not the one of the call: their entries differ
        obtain ⟨fh, hfh, hfront⟩ :=
          pop_front hleft ((if a.traced then [a.half] else []) ++ pending calls s.spec.left)
        rw [h.endCall_on hcalls hon, h.halfs, hcalls, pending_cons] at hend
        have heq : some fh = some a.half := by
          rw [← hfront]
          split at hend
          · cases hend
          · rename_i heq
            rw [heq]
            simp only [Except.ok.injEq, Prod.mk.injEq, if_true] at hend
            exact hend.1
        have hnodup := h.nodup
        rw [hcalls, ids_cons] at hnodup
        refine (List.nodup_append.1 hnodup).2.2 fh.entry (List.mem_map_of_mem hfh) a.half.entry
          List.mem_cons_self ?_
        rw [Option.some.inj heq]

theorem endCall_tracer (hmatch : Matched s.spec .exit) :
    ∃ popped, endCall s =
      .ok (popped, ⟨a.rest s.spec.on ++ pending calls s.spec.left, false⟩) := by
  cases hon : s.spec.on with
  | false =>
    refine ⟨none, ?_⟩
    have htracer : s.tracer = ⟨s.tracer.halfs, s.tracer.inFunctrace⟩ := rfl
    rw [endCall_off hcalls hon, htracer, h.idle, h.halfs, hcalls, pending_cons]
    simp [Activation.rest]
  | true =>
    obtain ⟨htraced, hleft⟩ := hmatch a calls hcalls hon
    refine ⟨some a.half, ?_⟩
    rw [h.endCall_own hcalls hon htraced hleft]
    simp [Activation.rest]

end

theorem ids_leave_sublist {s : Spec} (hcalls : s.calls = a :: calls) :
    (ids s.leave.calls s.leave.left).Sublist (ids s.calls s.left) := by
  rw [ids_leave hcalls, hcalls, ids_cons]
  unfold Activation.rest
  split
  · simp
  · simp

variable {e : Event}

theorem step_inv (h : Inv s) (hnest : e = .exit → s.spec.calls ≠ []) (hmatch : Matched s.spec e) :
    ∃ t, step s e = .ok t ∧ Inv t ∧ t.spec = specStep s.spec e := by
  cases e with
  | exit =>
    obtain ⟨a, calls, hcalls⟩ := List.exists_cons_of_ne_nil (hnest rfl)
    obtain ⟨popped, hend⟩ := endCall_tracer h hcalls hmatch
    refine ⟨⟨⟨a.rest s.spec.on ++ pending calls s.spec.left, false⟩, s.spec.leave⟩, ?_,
      ⟨rfl, (pending_leave hcalls).symm, ?_, ?_⟩, rfl⟩
    · rw [step, hend]
      rfl
    · exact h.nodup.sublist (ids_leave_sublist hcalls)
    · intro i hi
      change i < s.spec.leave.entries
      rw [leave_entries]
      exact h.fresh i ((ids_leave_sublist hcalls).subset hi)
  | enter pc tick =>
    refine ⟨_, rfl, ⟨?_, ?_, ?_, ?_⟩, rfl⟩
    · unfold ftraceStart
      split
      · exact h.idle
      · exact h.idle
    · simp only [specStep, pending_cons, ftraceStart, ftraceHalfCallAdd, h.idle, Spec.on]
      cases s.spec.flags.functraceDisabled with
      | false => simp [h.halfs]
      | true => simp [h.halfs]
    · simp only [specStep, ids_cons, List.map_nil, List.nil_append, List.nodup_cons]
      exact ⟨fun hin => absurd (h.fresh _ hin) (Nat.lt_irrefl _), h.nodup⟩
    · intro i hi
      simp only [specStep, ids_cons, List.map_nil, List.nil_append, List.mem_cons] at hi ⊢
      rcases hi with rfl | hi
      · exact Nat.lt_succ_self _
      · exact Nat.lt_succ_of_lt (h.fresh i hi)
  | enable | disable | sync | ft | resume =>
    exact ⟨_, rfl, ⟨h.idle, h.halfs, h.nodup, h.fresh⟩, rfl⟩

/-! ## Calls that leave nothing behind -/

/-- No record of a call that has ended is in the list. -/
structure Clean (s : Sys) : Prop extends Inv s where
  calls_left : ∀ a ∈ s.spec.calls, a.left = []
  spec_left : s.spec.left = []

theorem boot_clean : Clean boot := ⟨boot_inv, by simp [boot], rfl⟩

theorem matched_of_balanced (h : Clean s) (hbal : Balanced s.spec e) : Matched s.spec e := by
  cases e with
  | exit =>
    intro a calls hcalls hon
    have hleft : a.left = [] := h.calls_left a (by simp [hcalls])
    exact ⟨(hbal a calls hcalls).trans hon, by simp [hleft]⟩
  | enter | enable | disable | sync | ft | resume => trivial

theorem popped_of_handled (h : Handled s e) : Popped s e := by
  cases e with
  | exit =>
    intro a calls hcalls
    obtain ⟨tracer, hend, _⟩ := h a calls hcalls
    exact ⟨tracer, hend⟩
  | enter | enable | disable | sync | ft | resume => trivial

theorem entry_ne_of_mem (h : Clean s) (hcalls : s.spec.calls = a :: calls) {fh : FtraceHalf}
    (hfh : fh ∈ pending calls s.spec.left) : fh.entry ≠ a.half.entry := by
  have hnodup := h.nodup
  rw [hcalls, ids_cons, h.calls_left a (by simp [hcalls])] at hnodup
  intro heq
  exact (List.nodup_cons.1 hnodup).1 (heq ▸ entry_mem_ids hfh)

/-- **A call is handled** exactly if it is traced at both of its ends or at neither. -/
theorem handled_iff (h : Clean s) (hcalls : s.spec.calls = a :: calls) :
    Handled s .exit ↔ Balanced s.spec .exit := by
  constructor
  · intro hhandled b calls' hcalls'
    obtain ⟨tracer, hend, hgone⟩ := hhandled b calls' hcalls'
    cases hon : s.spec.on with
    | true =>
      exact (((popped_iff h.toInv hcalls).1 (popped_of_handled hhandled)) b calls' hcalls' hon).1
    | false =>
      -- the exit is ignored, so a record of the call would still be there
      rw [endCall_off hcalls' hon] at hend
      simp only [Except.ok.injEq, Prod.mk.injEq] at hend
      by_contra htraced
      refine hgone b.half ?_ rfl
      rw [← hend.2, h.halfs, hcalls', pending_cons]
      simp [Bool.eq_true_of_not_eq_false htraced]
  · intro hbal b calls' hcalls'
    obtain ⟨tracer, hend⟩ := (popped_iff h.toInv hcalls).2 (matched_of_balanced h hbal) b calls'
      hcalls'
    obtain ⟨popped, hend'⟩ := endCall_tracer h.toInv hcalls' (matched_of_balanced h hbal)
    have htracer : tracer = ⟨b.rest s.spec.on ++ pending calls' s.spec.left, false⟩ := by
      rw [hend] at hend'
      cases hend'
      rfl
    refine ⟨tracer, hend, ?_⟩
    have hrest : b.rest s.spec.on = [] := by
      rw [Activation.rest, h.calls_left b (by simp [hcalls']), hbal b calls' hcalls']
      simp
    rw [htracer, hrest]
    exact fun fh hfh => entry_ne_of_mem h hcalls' hfh

theorem leave_clean {s : Spec} (hcalls : s.calls = a :: calls) (hrest : a.rest s.on = [])
    (h : ∀ b ∈ s.calls, b.left = []) (hs : s.left = []) :
    (∀ b ∈ s.leave.calls, b.left = []) ∧ s.leave.left = [] := by
  unfold Spec.leave
  cases calls with
  | nil => simp [hcalls, hrest, hs]
  | cons b calls =>
    rw [hcalls] at h
    simp only [List.forall_mem_cons] at h
    simp only [hcalls, hrest, List.nil_append, List.forall_mem_cons]
    exact ⟨⟨h.2.1, h.2.2⟩, hs⟩

theorem step_clean (h : Clean s) (hnest : e = .exit → s.spec.calls ≠ [])
    (hbal : Balanced s.spec e) : ∃ t, step s e = .ok t ∧ Clean t ∧ t.spec = specStep s.spec e := by
  obtain ⟨t, hstep, hinv, hspec⟩ := step_inv h.toInv hnest (matched_of_balanced h hbal)
  suffices hleft : (∀ b ∈ (specStep s.spec e).calls, b.left = []) ∧
      (specStep s.spec e).left = [] by
    rw [← hspec] at hleft
    exact ⟨t, hstep, ⟨hinv, hleft.1, hleft.2⟩, hspec⟩
  cases e with
  | exit =>
    obtain ⟨a, calls, hcalls⟩ := List.exists_cons_of_ne_nil (hnest rfl)
    have hrest : a.rest s.spec.on = [] := by
      rw [Activation.rest, h.calls_left a (by simp [hcalls]), hbal a calls hcalls]
      simp
    exact leave_clean hcalls hrest h.calls_left h.spec_left
  | enter pc tick => exact ⟨List.forall_mem_cons.2 ⟨rfl, h.calls_left⟩, h.spec_left⟩
  | enable | disable | sync | ft | resume => exact ⟨h.calls_left, h.spec_left⟩

/-! ## Whole traces -/

theorem wellNested_exit {es : List Event} {calls : List Activation}
    (h : WellNested calls.length (.exit :: es)) : calls ≠ [] := by
  rintro rfl
  exact h

theorem wellNested_step {s : Spec} {es : List Event} (h : WellNested s.calls.length (e :: es)) :
    WellNested (specStep s e).calls.length es := by
  cases e with
  | exit =>
    obtain ⟨a, calls, hcalls⟩ := List.exists_cons_of_ne_nil (wellNested_exit h)
    rw [specStep, leave_length hcalls]
    rw [hcalls] at h
    exact h
  | enter | enable | disable | sync | ft | resume => exact h

/-- From one event to the trace: where `P` says of an event what `C` says, and the next state
keeps the invariant. -/
theorem throughout_iff {P : Sys → Event → Prop} {C : Spec → Event → Prop} {I : Sys → Prop}
    (hevent : ∀ s e, I s → (e = .exit → s.spec.calls ≠ []) → (P s e ↔ C s.spec e))
    (hnext : ∀ s e, I s → (e = .exit → s.spec.calls ≠ []) → C s.spec e →
      ∃ t, step s e = .ok t ∧ I t ∧ t.spec = specStep s.spec e)
    (es : List Event) (s : Sys) (hI : I s) (hnest : WellNested s.spec.calls.length es) :
    Throughout P s es ↔ Along C specStep s.spec es := by
  induction es generalizing s with
  | nil => exact Iff.rfl
  | cons e es ih =>
    have hexit : e = .exit → s.spec.calls ≠ [] := by
      rintro rfl
      exact wellNested_exit hnest
    rw [Throughout, Along, hevent s e hI hexit]
    refine and_congr_right fun hC => ?_
    obtain ⟨t, hstep, hIt, hspec⟩ := hnext s e hI hexit hC
    have ih := ih t hIt (hspec ▸ wellNested_step hnest)
    rw [hspec] at ih
    rw [hstep]
    constructor
    · intro hall
      exact ih.1 (hall t rfl)
    · rintro halong _ ⟨⟩
      exact ih.2 halong

/-- In every well-nested trace, with the tracer switched at any points of it, no exit fails
the assertion and every call is treated as it should be **exactly if** each call that ends is
traced at both of its ends or at neither. If records of calls traced only at their entry may
stay, it is enough that a traced exit has a traced entry with no such record of the same
function above it. -/
theorem functrace_balanced_iff (tr : List Event) (hnest : WellNested 0 tr) :
    (Throughout Handled boot tr ↔ Along Balanced specStep boot.spec tr) ∧
      (Throughout Popped boot tr ↔ Along Matched specStep boot.spec tr) := by
  constructor
  · refine throughout_iff ?_ ?_ tr boot boot_clean hnest
    · intro s e h hexit
      cases e with
      | exit =>
        obtain ⟨a, calls, hcalls⟩ := List.exists_cons_of_ne_nil (hexit rfl)
        exact handled_iff h hcalls
      | enter | enable | disable | sync | ft | resume => exact Iff.rfl
    · exact fun s e h hexit hbal => step_clean h hexit hbal
  · refine throughout_iff ?_ ?_ tr boot boot_inv hnest
    · intro s e h hexit
      cases e with
      | exit =>
        obtain ⟨a, calls, hcalls⟩ := List.exists_cons_of_ne_nil (hexit rfl)
        exact popped_iff h hcalls
      | enter | enable | disable | sync | ft | resume => exact Iff.rfl
    · exact fun s e h hexit hmatch => step_inv h hexit hmatch

/-- A recursive call traced throughout. -/
theorem functrace_balanced_recursive :
    Throughout Handled boot [.enable, .enter 64 1, .enter 64 2, .exit, .exit] := by
  refine (functrace_balanced_iff _ ?_).1.2 ?_
  · simp [WellNested]
  · simp [Along, Balanced, specStep, Spec.leave, Spec.on, flagStep, functraceEnable, boot]

/-- The monitor turns the tracer on with `ft` and goes on with `go`: `kmon_return`, which is
instrumented, is entered with the tracer off, enables it and fails the assertion at its exit. -/
theorem ftrace_end_asserts :
    WellNested 0 [.sync true, .ft true, .enter 64 1, .resume, .exit] ∧
      ((((step boot (.sync true)).bind fun s => step s (.ft true)).bind fun s =>
        step s (.enter 64 1)).bind fun s => step s .resume).bind (fun s => step s .exit) =
          .error (.assertion .ftraceEnd) ∧
      ¬ Throughout Handled boot [.sync true, .ft true, .enter 64 1, .resume, .exit] := by
  refine ⟨by simp [WellNested], rfl, ?_⟩
  intro h
  obtain ⟨tracer, hend, _⟩ := (h.2 _ rfl).2 _ rfl |>.2 _ rfl |>.2 _ rfl |>.1 _ _ rfl
  cases hend

end SpringOs.Functrace
