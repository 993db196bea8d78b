import SpringOs.Lib.Machine
import SpringOs.Kernel

/-!
`src/kmon/breakpoint.c`: the breakpoints of the monitor and the debug registers behind them.

* `step_inv`: whatever is called, the enable bit of a register is set exactly for the breakpoints
  that are on, and the register then holds their address;
* `brkpntSuspend_none`, `brkpntSuspend_some`: which breakpoint a single step suspends;
* `brkpnt_suspend_iff`: in every state reached, a single step at `pc` may be taken exactly when no
  breakpoint is on there, or one that has been hit and no other.

A hit counts for the first breakpoint with the address, on or off, and a single step suspends the
first one that is on: one that was never hit fails the assertion, and a second one stays armed.
-/

namespace SpringOs.Breakpoint
open Lib.Word Lib.Machine Kernel
open Function (update update_self update_of_ne)

variable {id i : Nat} {bcr bvr pc : BitVec 64} {ret : Int}

/-! ## The code -/

def brkpntMax : Nat := 2

inductive BrkpntState
  | off
  | on
  | suspendSs
  deriving DecidableEq, Repr

/-- `struct brkpnt`; `locstr` is a pointer. -/
structure Brkpnt where
  id : Nat
  state : BrkpntState
  hit : Int
  addr : BitVec 64
  locstr : BitVec 64
  deriving DecidableEq, Repr

/-- `allbrks` and the registers `dbgbcr<n>_el1` and `dbgbvr<n>_el1`. -/
structure Dbg where
  allbrks : Nat → Option Brkpnt
  dbgbcr : Nat → BitVec 64
  dbgbvr : Nat → BitVec 64

/-- Slot `id` with its two registers. -/
def Dbg.set (s : Dbg) (id : Nat) (brk : Option Brkpnt) (bcr bvr : BitVec 64) : Dbg :=
  ⟨update s.allbrks id brk, update s.dbgbcr id bcr,
    update s.dbgbvr id bvr⟩

/-- The loops over `allbrks` that stop at the first slot they look for. -/
def firstId (p : Nat → Bool) : Option Nat := (List.range brkpntMax).find? p

/-- `brkpnt_add`, with the answer of `kalloc`. -/
def brkpntAdd (s : Dbg) (addr locstr : BitVec 64) (kalloc : Bool) : Int × Dbg :=
  match firstId fun id => (s.allbrks id).isNone with
  | none => (-1, s)
  | some id =>
    if !kalloc then (-1, s)
    else (id, s.set id (some ⟨id, .off, 0, addr, locstr⟩) (s.dbgbcr id) (s.dbgbvr id))

/-- One round of `brkpnt_restore`. -/
def restoreSlot (s : Dbg) (id : Nat) : Dbg :=
  match s.allbrks id with
  | some b =>
    if b.state = .suspendSs then
      s.set id (some { b with state := .on }) (s.dbgbcr id ||| 1#64) (s.dbgbvr id)
    else s
  | none => s

def brkpntRestore (s : Dbg) : Dbg := (List.range brkpntMax).foldl restoreSlot s

/-- A breakpoint at `pc` that is on. -/
def onAt (s : Dbg) (pc : BitVec 64) (id : Nat) : Bool :=
  (s.allbrks id).any fun b => b.addr == pc && b.state == .on

def brkpntSuspend (s : Dbg) (pc : BitVec 64) : Except Fault Dbg :=
  match firstId (onAt s pc) with
  | none => .ok s
  | some id =>
    match s.allbrks id with
    | none => .error .nullDeref
    | some b =>
      if b.hit > 0 then
        .ok (s.set id (some { b with state := .suspendSs }) (s.dbgbcr id &&& ~~~1#64) (s.dbgbvr id))
      else .error (.assertion .brkpntSuspend)

/-- The slot of an `id` that passes the assertions of `brkpnt_enable` and `brkpnt_disable`. -/
def slotOf (s : Dbg) (id : Int) (fn : Fn) : Except Fault (Nat × Brkpnt) :=
  if id ≥ 0 ∧ id < brkpntMax then
    match s.allbrks id.toNat with
    | none => .error (.assertion fn)
    | some b => .ok (id.toNat, b)
  else .error (.assertion fn)

def brkpntEnable (s : Dbg) (id : Int) : Except Fault (Int × Dbg) := do
  let (id, b) ← slotOf s id .brkpntEnable
  if b.state = .on then .ok (0, s)
  else .ok (0, s.set id (some { b with state := .on })
    (s.dbgbcr id ||| (0xf#64 <<< 5 ||| 0x3#64 <<< 1 ||| 0x1#64)) b.addr)

def brkpntDisable (s : Dbg) (id : Int) : Except Fault (Int × Dbg) := do
  let (id, b) ← slotOf s id .brkpntDisable
  if b.state = .off then .ok (0, s)
  else .ok (0, s.set id (some { b with state := .off }) (s.dbgbcr id &&& ~~~1#64) (s.dbgbvr id))

/-- `brkpnt_del`, which has no assertion of its own on `id`. -/
def brkpntDel (s : Dbg) (id : Int) : Except Fault (Int × Dbg) :=
  if id ≥ 0 ∧ id < brkpntMax then
    match s.allbrks id.toNat with
    | none => .ok (-1, s)
    | some _ => do
      let (ret, s) ← brkpntDisable s id
      if ret < 0 then .ok (-1, s)
      else .ok (0, s.set id.toNat none (s.dbgbcr id.toNat) (s.dbgbvr id.toNat))
  else .error .outOfBounds

/-- The hit goes to the first breakpoint with the address. -/
def brkpntHitHandler (s : Dbg) (breakaddr : BitVec 64) : Except Fault Dbg :=
  match firstId fun id => (s.allbrks id).any fun b => b.addr == breakaddr with
  | none => .error (.assertion .brkpntHitHandler)
  | some id =>
    match s.allbrks id with
    | none => .error .nullDeref
    | some b =>
      .ok (s.set id (some { b with hit := i32 (b.hit + 1) }) (s.dbgbcr id) (s.dbgbvr id))

/-! ## Runs -/

inductive Op
  | add (addr locstr : BitVec 64) (kalloc : Bool)
  | enable (id : Int)
  | disable (id : Int)
  | del (id : Int)
  | hit (breakaddr : BitVec 64)
  | suspend (pc : BitVec 64)
  | restore

def step (s : Dbg) : Op → Option Dbg
  | .add addr locstr kalloc => some (brkpntAdd s addr locstr kalloc).2
  | .enable id => (brkpntEnable s id).toOption.map Prod.snd
  | .disable id => (brkpntDisable s id).toOption.map Prod.snd
  | .del id => (brkpntDel s id).toOption.map Prod.snd
  | .hit breakaddr => (brkpntHitHandler s breakaddr).toOption
  | .suspend pc => (brkpntSuspend s pc).toOption
  | .restore => some (brkpntRestore s)

def enableBit (bcr : BitVec 64) : Bool := bcr.getLsbD 0

structure Fresh (s : Dbg) : Prop where
  none : ∀ i, s.allbrks i = none
  clear : ∀ i, enableBit (s.dbgbcr i) = false

/-- The hardware stops at `pc` by register `i`. -/
def Armed (s : Dbg) (pc : BitVec 64) (i : Nat) : Prop :=
  enableBit (s.dbgbcr i) = true ∧ s.dbgbvr i = pc

/-- The enable bits are those of the breakpoints that are on, at their addresses. -/
def Agree (s : Dbg) : Prop :=
  ∀ i < brkpntMax, enableBit (s.dbgbcr i) = true ↔
    ∃ b, s.allbrks i = some b ∧ b.state = .on ∧ s.dbgbvr i = b.addr

/-- A single step can be taken at `pc`: the call returns, and no register stops there. -/
def SuspendRight (s : Dbg) (pc : BitVec 64) : Prop :=
  ∃ s', brkpntSuspend s pc = .ok s' ∧ ∀ i < brkpntMax, ¬ Armed s' pc i

/-! ## The invariant -/

/-- A slot and its registers. A suspended breakpoint keeps its address in the register. -/
structure SlotInv (brk : Option Brkpnt) (bcr bvr : BitVec 64) : Prop where
  enabled : enableBit bcr = true ↔ ∃ b, brk = some b ∧ b.state = .on
  addr : ∀ b, brk = some b → b.state ≠ .off → bvr = b.addr

def Inv (s : Dbg) : Prop := ∀ i, SlotInv (s.allbrks i) (s.dbgbcr i) (s.dbgbvr i)

variable {s s' : Dbg} {b : Brkpnt}

theorem Inv.set (h : Inv s) {brk : Option Brkpnt} (hslot : SlotInv brk bcr bvr) :
    Inv (s.set id brk bcr bvr) := by
  intro i
  by_cases hi : i = id
  · subst hi
    simpa only [Dbg.set, update_self] using hslot
  · simpa only [Dbg.set, update_of_ne hi] using h i

theorem SlotInv.of_none (hbit : enableBit bcr = false) : SlotInv none bcr bvr :=
  ⟨by simp [hbit], nofun⟩

theorem SlotInv.of_not_on (hbit : enableBit bcr = false) (hne : b.state ≠ .on)
    (haddr : b.state ≠ .off → bvr = b.addr) : SlotInv (some b) bcr bvr := by
  refine ⟨by simp [hbit, hne], ?_⟩
  rintro c ⟨⟩ hoff
  exact haddr hoff

theorem SlotInv.of_on (hbit : enableBit bcr = true) (hon : b.state = .on) :
    SlotInv (some b) bcr b.addr := by
  refine ⟨by simp [hbit, hon], ?_⟩
  rintro c ⟨⟩ -
  rfl

theorem SlotInv.addr_of_on {brk : Option Brkpnt} (h : SlotInv brk bcr bvr) (hb : brk = some b)
    (hon : b.state = .on) : bvr = b.addr :=
  h.addr b hb (by simp [hon])

theorem enableBit_and (bcr : BitVec 64) : enableBit (bcr &&& ~~~1#64) = false := by
  simp [enableBit]

theorem enableBit_or (bcr : BitVec 64) : enableBit (bcr ||| 1#64) = true := by
  simp [enableBit]

theorem enableBit_setup (bcr : BitVec 64) :
    enableBit (bcr ||| (0xf#64 <<< 5 ||| 0x3#64 <<< 1 ||| 0x1#64)) = true := by
  simp [enableBit]

theorem Fresh.inv (h : Fresh s) : Inv s := by
  intro i
  rw [h.none i]
  exact .of_none (h.clear i)

theorem Inv.agree (h : Inv s) : Agree s := by
  intro i _
  rw [(h i).enabled]
  constructor
  · rintro ⟨b, hb, hon⟩
    exact ⟨b, hb, hon, (h i).addr_of_on hb hon⟩
  · rintro ⟨b, hb, hon, -⟩
    exact ⟨b, hb, hon⟩

/-! ## Each function -/

theorem firstId_some {p : Nat → Bool} (h : firstId p = some id) : p id = true ∧ id < brkpntMax :=
  ⟨List.find?_some h, List.mem_range.1 (List.mem_of_find?_eq_some h)⟩

theorem brkpntAdd_inv (h : Inv s) (addr locstr : BitVec 64) (kalloc : Bool) :
    Inv (brkpntAdd s addr locstr kalloc).2 := by
  unfold brkpntAdd
  split
  · exact h
  · rename_i id hid
    split
    · exact h
    · have hnone : s.allbrks id = none := Option.isNone_iff_eq_none.1 (firstId_some hid).1
      have hbit : enableBit (s.dbgbcr id) = false := by simpa [hnone] using (h id).enabled
      exact h.set (.of_not_on hbit (by simp) (by simp))

theorem restoreSlot_inv (h : Inv s) (id : Nat) : Inv (restoreSlot s id) := by
  unfold restoreSlot
  split
  · rename_i b hb
    split
    · rename_i hsus
      have haddr := (h id).addr b hb (by simp [hsus])
      rw [haddr]
      exact h.set (.of_on (enableBit_or _) rfl)
    · exact h
  · exact h

theorem brkpntRestore_inv (h : Inv s) : Inv (brkpntRestore s) := by
  unfold brkpntRestore
  generalize List.range brkpntMax = ids
  induction ids generalizing s with
  | nil => exact h
  | cons id ids ih => exact ih (restoreSlot_inv h id)

theorem slotOf_ok {id : Int} {fn : Fn} {slot : Nat × Brkpnt} (h : slotOf s id fn = .ok slot) :
    slot.1 = id.toNat ∧ s.allbrks slot.1 = some slot.2 := by
  unfold slotOf at h
  split at h
  · split at h
    · cases h
    · rename_i b hb
      cases h
      exact ⟨rfl, hb⟩
  · cases h

theorem brkpntEnable_inv (h : Inv s) {id : Int} (hrun : brkpntEnable s id = .ok (ret, s')) :
    Inv s' := by
  obtain ⟨⟨i, b⟩, -, hrun⟩ := ok_of_bind hrun
  dsimp only at hrun
  split at hrun
  · cases hrun
    exact h
  · cases hrun
    exact h.set (.of_on (enableBit_setup _) rfl)

theorem brkpntDisable_inv (h : Inv s) {id : Int} (hrun : brkpntDisable s id = .ok (ret, s')) :
    Inv s' := by
  obtain ⟨⟨i, b⟩, -, hrun⟩ := ok_of_bind hrun
  dsimp only at hrun
  split at hrun
  · cases hrun
    exact h
  · cases hrun
    exact h.set (.of_not_on (enableBit_and _) (by simp) (by simp))

theorem brkpntDisable_off {id : Int} (hrun : brkpntDisable s id = .ok (ret, s')) :
    ∃ b, s'.allbrks id.toNat = some b ∧ b.state = .off := by
  obtain ⟨⟨i, b⟩, hslot, hrun⟩ := ok_of_bind hrun
  obtain ⟨rfl, hb⟩ := slotOf_ok hslot
  dsimp only at hrun hb
  split at hrun
  · rename_i hoff
    cases hrun
    exact ⟨b, hb, hoff⟩
  · cases hrun
    exact ⟨_, update_self .., rfl⟩

theorem brkpntDel_inv (h : Inv s) {id : Int} (hrun : brkpntDel s id = .ok (ret, s')) : Inv s' := by
  unfold brkpntDel at hrun
  split at hrun
  · split at hrun
    · cases hrun
      exact h
    · obtain ⟨⟨ret', t⟩, hdis, hrun⟩ := ok_of_bind hrun
      have ht := brkpntDisable_inv h hdis
      obtain ⟨b, hb, hoff⟩ := brkpntDisable_off hdis
      dsimp only at hrun
      split at hrun
      · cases hrun
        exact ht
      · cases hrun
        refine ht.set (.of_none ?_)
        simpa [hb, hoff] using (ht id.toNat).enabled
  · cases hrun

theorem brkpntHitHandler_inv (h : Inv s) {breakaddr : BitVec 64}
    (hrun : brkpntHitHandler s breakaddr = .ok s') : Inv s' := by
  unfold brkpntHitHandler at hrun
  split at hrun
  · cases hrun
  · rename_i id _
    split at hrun
    · cases hrun
    · rename_i b hb
      cases hrun
      have hslot := h id
      rw [hb] at hslot
      refine h.set ⟨?_, ?_⟩
      · rw [hslot.enabled]
        simp
      · intro c hc hne
        cases hc
        exact hslot.addr b rfl hne

/-! ## A single step -/

theorem onAt_iff :
    onAt s pc i = true ↔ ∃ b, s.allbrks i = some b ∧ b.addr = pc ∧ b.state = .on := by
  simp [onAt, Option.any_eq_true]

/-- The breakpoints that are on at `pc` are those by which the hardware stops there. -/
theorem Inv.armed_iff (h : Inv s) : Armed s pc i ↔ onAt s pc i = true := by
  rw [onAt_iff, Armed, (h i).enabled]
  constructor
  · rintro ⟨⟨b, hb, hon⟩, hpc⟩
    exact ⟨b, hb, ((h i).addr_of_on hb hon).symm.trans hpc, hon⟩
  · rintro ⟨b, hb, hpc, hon⟩
    exact ⟨⟨b, hb, hon⟩, ((h i).addr_of_on hb hon).trans hpc⟩

/-- Breakpoint `b` of slot `id` suspended. -/
def suspended (s : Dbg) (id : Nat) (b : Brkpnt) : Dbg :=
  s.set id (some { b with state := .suspendSs }) (s.dbgbcr id &&& ~~~1#64) (s.dbgbvr id)

theorem brkpntSuspend_none (h : firstId (onAt s pc) = none) :
    brkpntSuspend s pc = .ok s ∧ ∀ i < brkpntMax, ¬ onAt s pc i = true := by
  refine ⟨by rw [brkpntSuspend, h], fun i hi => ?_⟩
  exact List.find?_eq_none.1 h i (List.mem_range.2 hi)

theorem brkpntSuspend_some (h : firstId (onAt s pc) = some id) :
    ∃ b, s.allbrks id = some b ∧ b.addr = pc ∧ b.state = .on ∧
      brkpntSuspend s pc = if b.hit > 0 then .ok (suspended s id b)
        else .error (.assertion .brkpntSuspend) := by
  obtain ⟨b, hb, hpc, hon⟩ := onAt_iff.1 (firstId_some h).1
  refine ⟨b, hb, hpc, hon, ?_⟩
  unfold brkpntSuspend
  rw [h]
  dsimp only
  rw [hb]
  rfl

theorem suspended_inv (h : Inv s) (hb : s.allbrks id = some b) (hon : b.state = .on) :
    Inv (suspended s id b) := by
  have haddr : s.dbgbvr id = b.addr := (h id).addr_of_on hb hon
  exact h.set (.of_not_on (enableBit_and _) (by simp) fun _ => haddr)

theorem brkpntSuspend_inv (h : Inv s) (hrun : brkpntSuspend s pc = .ok s') : Inv s' := by
  cases hid : firstId (onAt s pc) with
  | none =>
    rw [(brkpntSuspend_none hid).1] at hrun
    cases hrun
    exact h
  | some id =>
    obtain ⟨b, hb, -, hon, hcall⟩ := brkpntSuspend_some hid
    rw [hcall] at hrun
    split at hrun
    · cases hrun
      exact suspended_inv h hb hon
    · cases hrun

theorem step_inv {t : Dbg} (h : Inv s) {op : Op} (hstep : step s op = some t) : Inv t := by
  have hsnd : ∀ {res : Except Fault (Int × Dbg)}, res.toOption.map Prod.snd = some t →
      ∃ ret, res = .ok (ret, t) := by
    intro res hres
    obtain ⟨x, hx, rfl⟩ := Option.map_eq_some_iff.1 hres
    exact ⟨x.1, ok_of_toOption hx⟩
  cases op with
  | add addr locstr kalloc =>
    cases hstep
    exact brkpntAdd_inv h addr locstr kalloc
  | enable id =>
    obtain ⟨ret, hrun⟩ := hsnd hstep
    exact brkpntEnable_inv h hrun
  | disable id =>
    obtain ⟨ret, hrun⟩ := hsnd hstep
    exact brkpntDisable_inv h hrun
  | del id =>
    obtain ⟨ret, hrun⟩ := hsnd hstep
    exact brkpntDel_inv h hrun
  | hit breakaddr => exact brkpntHitHandler_inv h (ok_of_toOption hstep)
  | suspend pc => exact brkpntSuspend_inv h (ok_of_toOption hstep)
  | restore =>
    cases hstep
    exact brkpntRestore_inv h

theorem steps_inv {s₀ : Dbg} (h0 : Fresh s₀) (h : Steps step (fun _ _ => True) s₀ s) : Inv s :=
  h.invariant h0.inv fun _ _ _ ht _ hstep => step_inv ht hstep

/-! ## When a single step is right -/

/-- After suspending slot `id` the hardware stops at `pc` by the other breakpoints on there. -/
theorem suspended_armed_iff (h : Inv s) (hb : s.allbrks id = some b) (hon : b.state = .on) :
    Armed (suspended s id b) pc i ↔ i ≠ id ∧ onAt s pc i = true := by
  rw [(suspended_inv h hb hon).armed_iff, onAt_iff, onAt_iff]
  by_cases hi : i = id
  · subst hi
    simp [suspended, Dbg.set]
  · simp [suspended, Dbg.set, hi]

theorem suspendRight_iff (h : Inv s) (pc : BitVec 64) :
    SuspendRight s pc ↔ ∀ i < brkpntMax, ∀ b, s.allbrks i = some b → b.addr = pc →
      b.state = .on → 0 < b.hit ∧ ∀ j < brkpntMax, onAt s pc j = true → j = i := by
  cases hid : firstId (onAt s pc) with
  | none =>
    obtain ⟨hcall, hnone⟩ := brkpntSuspend_none hid
    refine iff_of_true ⟨s, hcall, fun i hi harm => hnone i hi (h.armed_iff.1 harm)⟩ ?_
    exact fun i hi b hb hpc hon => absurd (onAt_iff.2 ⟨b, hb, hpc, hon⟩) (hnone i hi)
  | some id =>
    obtain ⟨b, hb, hpc, hon, hcall⟩ := brkpntSuspend_some hid
    have hlt := (firstId_some hid).2
    constructor
    · rintro ⟨s', hrun, hfree⟩ i hi c hc hcpc hcon
      rw [hcall] at hrun
      split at hrun
      · rename_i hhit
        cases hrun
        have hone : ∀ j < brkpntMax, onAt s pc j = true → j = id := fun j hj hat =>
          Classical.byContradiction fun hne =>
            hfree j hj ((suspended_armed_iff h hb hon).2 ⟨hne, hat⟩)
        obtain rfl := hone i hi (onAt_iff.2 ⟨c, hc, hcpc, hcon⟩)
        rw [hb] at hc
        cases hc
        exact ⟨hhit, hone⟩
      · cases hrun
    · intro hcond
      obtain ⟨hhit, hone⟩ := hcond id hlt b hb hpc hon
      refine ⟨_, hcall.trans (if_pos hhit), fun i hi harm => ?_⟩
      obtain ⟨hne, hat⟩ := (suspended_armed_iff h hb hon).1 harm
      exact hne (hone i hi hat)

/-- **Single steps.** In every state that the monitor and the hits reach, hardware and software
agree; a single step at `pc` passes its assertion and leaves no register that stops at `pc`
exactly when at most one breakpoint is on there and that one has been hit. -/
theorem brkpnt_suspend_iff {s₀ s : Dbg} (h0 : Fresh s₀)
    (h : Steps step (fun _ _ => True) s₀ s) (pc : BitVec 64) :
    Agree s ∧ (SuspendRight s pc ↔ ∀ i < brkpntMax, ∀ b, s.allbrks i = some b → b.addr = pc →
      b.state = .on → 0 < b.hit ∧ ∀ j < brkpntMax, onAt s pc j = true → j = i) :=
  ⟨(steps_inv h0 h).agree, suspendRight_iff (steps_inv h0 h) pc⟩

def reset : Dbg := ⟨fun _ => none, fun _ => 0x1e0#64, fun _ => 0#64⟩

theorem reset_fresh : Fresh reset := by
  refine ⟨fun _ => rfl, fun _ => ?_⟩
  change enableBit 0x1e0#64 = false
  decide

/-- A breakpoint that was hit is stepped over. -/
theorem brkpnt_suspend_hit : ∃ s,
    run step reset [.add 0x1000 0 true, .enable 0, .hit 0x1000] = some s ∧
      SuspendRight s 0x1000 := by
  obtain ⟨s, hs⟩ : ∃ s, run step reset [.add 0x1000 0 true, .enable 0, .hit 0x1000] = some s :=
    ⟨_, rfl⟩
  have hslots : (s.allbrks 0, s.allbrks 1) = (some ⟨0, .on, 1, 0x1000, 0⟩, none) := by
    cases hs
    rfl
  obtain ⟨hfirst, hsecond⟩ := Prod.mk.inj hslots
  refine ⟨s, hs, ?_⟩
  refine (brkpnt_suspend_iff reset_fresh (Steps.refl.run (fun _ _ => trivial) hs) 0x1000).2.2 ?_
  have hone : ∀ i < brkpntMax, ∀ b, s.allbrks i = some b → i = 0 := by
    intro i hi b hb
    match i with
    | 0 => rfl
    | 1 =>
      rw [hsecond] at hb
      cases hb
  intro i hi b hb _ _
  obtain rfl := hone i hi b hb
  rw [hfirst] at hb
  cases hb
  refine ⟨by decide, fun j hj hat => ?_⟩
  obtain ⟨c, hc, -⟩ := onAt_iff.1 hat
  exact hone j hj c hc

/-- **Single steps that go wrong.** A breakpoint set at the `pc` of the monitor was never hit. The
hit of a breakpoint that is on counts for one that is off at the same address. Of two that are on,
the second still stops at `pc`. -/
theorem brkpnt_suspend_wrong : Fresh reset ∧
    (∃ s, run step reset [.add 0x1000 0 true, .enable 0] = some s ∧
      brkpntSuspend s 0x1000 = .error (.assertion .brkpntSuspend)) ∧
    (∃ s, run step reset [.add 0x1000 0 true, .add 0x1000 0 true, .enable 1, .hit 0x1000] = some s ∧
      brkpntSuspend s 0x1000 = .error (.assertion .brkpntSuspend)) ∧
    ∃ s, run step reset [.add 0x1000 0 true, .enable 0, .add 0x1000 0 true, .enable 1,
      .hit 0x1000, .suspend 0x1000] = some s ∧ Armed s 0x1000 1 :=
  ⟨reset_fresh, ⟨_, rfl, rfl⟩, ⟨_, rfl, rfl⟩, _, rfl, rfl, rfl⟩

end SpringOs.Breakpoint
