import SpringOs.KobjectRuns

/-!
System-call dispatch, `syscall.c`, down to the arrays its values index.

* `Bounded`: a computation that does not index an array out of bounds and does not
  follow the null `next` of a handle table;
* **`syscall_bounded_iff`**: the register contents for which the dispatch path stays
  in bounds, in every reachable state;
* `syscall_out_of_bounds`: a negative call number, and a handle past the only table.
-/

namespace SpringOs.Syscall
open Kernel Lib.Word Lib.Machine Kobject KobjectRuns
open Handle hiding step Op

variable {table : HandleTable} {h : Int} {w : World} {proc : Proc}

/-! ## `syscall.c` -/

/-- The user registers a system call reads and writes. -/
structure GpRegs where
  x0 : UInt64
  x1 : UInt64
  x2 : UInt64
  x8 : UInt64

/-- The entries of `__syscall_table`. -/
inductive SyscallFn
  | unsupport
  | kobjectOpen
  | kobjectCreate
  | kobjectReply
  | kobjectSend
  | kobjectRecv
  | kobjectClose
  | kobjectCtl
  | kobjectMmap
  | kobjectMunmap
  deriving DecidableEq

/-- `__NR_syscalls`. -/
def nrSyscalls : Int := 21

/-- `__syscall_table`: one entry more than there are numbers. -/
def syscallTable : List SyscallFn :=
  [.kobjectCreate, .kobjectOpen, .kobjectClose, .kobjectRecv, .kobjectSend, .kobjectReply,
    .unsupport, .kobjectCtl, .kobjectMmap, .kobjectMunmap, .unsupport, .unsupport, .unsupport,
    .unsupport, .unsupport, .unsupport, .unsupport, .unsupport, .unsupport, .unsupport, .unsupport,
    .unsupport]

/-- What surrounds a call: the user memory and allocations a creation meets, what the
locals of `sys_kobject_send` held, and what `stdio_send` returns. -/
structure CallEnv where
  create : CreateEnv
  junk : Option Nat × UInt32
  sent : Int

/-- `sys_kobject_create`, run through. -/
def sysKobjectCreate (w : World) (p : Nat) (proc : Proc) (type : Int) (env : CreateEnv) :
    Except Fault (Int × World) := do
  let (res, w) ← kobjectCreate w proc type env
  match res with
  | .error ret => .ok (ret, w)
  | .ok (kobj, right) => attach w p proc kobj right

/-- `sys_kobject_send`, run through. -/
def sysKobjectSend (w : World) (proc : Proc) (handle : Int) (env : CallEnv) :
    Except Fault (Int × World) := do
  let (res, w) ← Kobject.sendBegin w proc handle env.junk
  match res with
  | .error ret => .ok (ret, w)
  | .ok (kobj, right, _) => Kobject.sendEnd w kobj right env.sent

/-- The entries of the table. The calls that are not built return 0; two of them also
clear `x1` and `x2`. -/
def SyscallFn.run (w : World) (p : Nat) (proc : Proc) (regs : GpRegs) (env : CallEnv) :
    SyscallFn → Except Fault (GpRegs × World)
  | .unsupport => .error .exit
  | .kobjectCreate => do
    let (ret, w) ← sysKobjectCreate w p proc (i32 regs.x0.toNat) env.create
    .ok ({ regs with x0 := .ofInt ret }, w)
  | .kobjectSend => do
    let (ret, w) ← sysKobjectSend w proc (i16 (i32 regs.x0.toNat)) env
    .ok ({ regs with x0 := .ofInt ret }, w)
  | .kobjectClose => do
    let (ret, w) ← sysKobjectClose w p proc (i16 regs.x0.toNat)
    .ok ({ regs with x0 := .ofInt ret }, w)
  | .kobjectRecv | .kobjectMmap => .ok ({ regs with x0 := 0, x1 := 0, x2 := 0 }, w)
  | .kobjectOpen | .kobjectReply | .kobjectCtl | .kobjectMunmap => .ok ({ regs with x0 := 0 }, w)

/-- `syscall_handler`, on behalf of process `p`. -/
def syscallHandler (w : World) (p : Nat) (proc : Proc) (regs : GpRegs) (env : CallEnv) :
    Except Fault (GpRegs × World) :=
  let nr := i32 regs.x8.toNat
  if nrSyscalls ≤ nr then .ok ({ regs with x0 := .ofInt (-einval) }, w)
  else if nr < 0 then .error .outOfBounds
  else match syscallTable[nr.toNat]? with
    | none => .error .outOfBounds
    | some fn => fn.run w p proc regs env

/-! ## Bounded computations -/

/-- No array index out of bounds, and no step through a null `next`. -/
def Bounded {α : Type} (x : Except Fault α) : Prop :=
  x ≠ .error .outOfBounds ∧ x ≠ .error .nullTable

variable {α β : Type}

@[simp] theorem bounded_ok (a : α) : Bounded (.ok a : Except Fault α) := by
  constructor <;> intro h <;> cases h

@[simp] theorem bounded_error (e : Fault) :
    Bounded (.error e : Except Fault α) ↔ e ≠ .outOfBounds ∧ e ≠ .nullTable := by
  simp [Bounded]

variable {x : Except Fault α} {f : α → Except Fault β}

theorem Bounded.bind (hx : Bounded x) (hf : ∀ a, x = .ok a → Bounded (f a)) :
    Bounded (x >>= f) := by
  cases x with
  | error e => exact (bounded_error e).2 ((bounded_error e).1 hx)
  | ok a => exact hf a rfl

/-- What follows a computation does not matter for a computation that always goes on
in bounds. -/
theorem bounded_bind_iff (hf : ∀ a, Bounded (f a)) : Bounded (x >>= f) ↔ Bounded x := by
  constructor
  · intro h
    cases x with
    | error e => exact (bounded_error e).2 ((bounded_error e).1 h)
    | ok a => exact bounded_ok a
  · intro h
    exact h.bind fun a _ => hf a

theorem kobjectGet_bounded (ref : Nat → Int) (kobj : Nat) :
    Bounded (kobjectGet ref (some kobj)) := by
  rw [kobjectGet_some]
  split <;> simp

theorem handleAlloc_bounded (ht : TableOk table) (ref : Nat → Int) (kobj : Nat) (right : UInt32) :
    Bounded (handleAlloc [table] ref kobj right) := by
  apply Bounded.bind
  · obtain ⟨-, h⟩ | ⟨i, -, -, h, -⟩ := handleSlot_single ht kobj right <;> simp [h]
  · intro res _
    exact (kobjectGet_bounded _ _).bind fun _ _ => bounded_ok _

theorem allocExpect_bounded (ht : TableOk table) (ref : Nat → Int) (kobj : Nat) (right : UInt32)
    (expected : Int) : Bounded (allocExpect kobj right expected ([table], ref)) := by
  apply (handleAlloc_bounded ht ref kobj right).bind
  intro res _
  dsimp only
  split <;> simp

theorem initProcHandles_bounded (ref : Nat → Int) (own stdio : Nat) :
    Bounded (initProcHandles ref own stdio) := by
  apply (allocExpect_bounded newHandleTable_ok _ _ _ _).bind
  intro s1 h1
  obtain ⟨t1, took1, -, rfl⟩ := allocExpect_took newHandleTable_ok h1
  apply (allocExpect_bounded took1.ok _ _ _ _).bind
  intro s2 h2
  obtain ⟨t2, took2, -, rfl⟩ := allocExpect_took took1.ok h2
  apply (allocExpect_bounded took2.ok _ _ _ _).bind
  intro s3 h3
  obtain ⟨t3, took3, -, rfl⟩ := allocExpect_took took2.ok h3
  exact allocExpect_bounded took3.ok _ _ _ _

theorem createProc_bounded (w : World) (mem : Option ProcMem) (named : Bool) :
    Bounded (createProc w mem named) := by
  cases mem with
  | none => simp [createProc]
  | some mem => exact (initProcHandles_bounded _ _ _).bind fun _ _ => bounded_ok _

theorem createPma_bounded (w : World) (proc : Proc) (env : CreateEnv) :
    Bounded (createPma w proc env) := by
  unfold createPma
  repeat' split
  all_goals simp

/-- The type indexes `kobj_create_cbs` within its 13 entries. -/
theorem kobjectCreate_bounded (w : World) (proc : Proc) (type : Int) (env : CreateEnv) :
    Bounded (kobjectCreate w proc type env) := by
  unfold kobjectCreate
  split
  · exact bounded_ok _
  rename_i htype
  split
  · rename_i hcb
    have hlen : kobjCreateCbs.length = 13 := rfl
    have := List.getElem?_eq_none_iff.1 hcb
    unfold kobjTypeMax at htype
    omega
  · exact bounded_ok _
  · unfold kobjectCreateProc
    split
    · exact bounded_ok _
    · exact (createProc_bounded w env.proc false).bind fun _ _ => bounded_ok _
  · exact createPma_bounded w proc env

theorem kobjectPut_bounded (w : World) (kobj : Option Nat) : Bounded (kobjectPut w kobj) := by
  cases kobj with
  | none => exact bounded_ok _
  | some kobj =>
    simp only [kobjectPut]
    split
    · simp
    split
    · split
      · refine Bounded.bind ?_ fun _ _ => bounded_ok _
        cases w.ops kobj <;> simp [kobjectRelease]
      · exact bounded_ok _
    · simp

theorem kobjectSend_bounded (w : World) (sent : Int) (kobj : Option Nat) :
    Bounded (kobjectSend w sent kobj) := by
  cases kobj with
  | none => simp [kobjectSend]
  | some kobj =>
    simp only [kobjectSend]
    split
    · simp
    · cases w.ops kobj <;> simp

theorem sendEnd_bounded (w : World) (kobj : Option Nat) (right : UInt32) (sent : Int) :
    Bounded (Kobject.sendEnd w kobj right sent) := by
  apply Bounded.bind
  · split
    · exact bounded_ok _
    · exact kobjectSend_bounded w sent kobj
  · intro ret _
    exact (kobjectPut_bounded w kobj).bind fun _ _ => bounded_ok _

/-! ## Handles -/

/-- The handles whose lookup stays in a chain of one page: those of the page, and
those refused before it. -/
def handleInPage (handle : Int) : Prop := handle < 255 ∨ 32640 ≤ handle

theorem getKobject_bounded_iff (table : HandleTable) (ref : Nat → Int) (hlo : -32768 ≤ h)
    (hhi : h < 32768) : Bounded (getKobject [table] ref h) ↔ handleInPage h := by
  rw [getKobject_single table ref hlo hhi]
  unfold handleInPage
  by_cases hinv : h < 0 ∨ 32640 ≤ h
  · simp only [hinv, if_true, bounded_ok, true_iff]
    omega
  by_cases hge : 255 ≤ h
  · simp only [hinv, hge, if_true, if_false]
    simp
    omega
  · simp only [hinv, hge, if_false]
    refine iff_of_true ?_ (by omega)
    cases table.at h with
    | none => simp
    | some kr =>
      dsimp only
      split <;> simp

theorem handleFree_bounded_iff (table : HandleTable) (hlo : -32768 ≤ h) (hhi : h < 32768) :
    Bounded (handleFree [table] h) ↔ handleInPage h := by
  rw [handleFree_single table hlo hhi]
  unfold handleInPage
  by_cases hinv : h < 0 ∨ 32640 ≤ h
  · simp only [hinv, if_true, bounded_ok, true_iff]
    omega
  by_cases hge : 255 ≤ h
  · simp only [hinv, hge, if_true, if_false]
    simp
    omega
  · simp only [hinv, hge, if_false]
    refine iff_of_true ?_ (by omega)
    cases table.at h <;> simp

/-! ## The dispatch path -/

/-- The register contents with which the dispatch path stays in bounds: a number past
the table, or one in it that, for a send and a close, comes with a handle of the
page or one that is refused. -/
def Legal (regs : GpRegs) : Prop :=
  nrSyscalls ≤ i32 regs.x8.toNat ∨
    0 ≤ i32 regs.x8.toNat ∧
      (i32 regs.x8.toNat = 2 ∨ i32 regs.x8.toNat = 4 → handleInPage (i16 regs.x0.toNat))

theorem i16_i32 (n : Int) : i16 (i32 n) = i16 n := by
  unfold i16 i32
  omega

theorem sysKobjectCreate_bounded (htab : proc.tables = [table]) (hok : TableOk table) (p : Nat)
    (type : Int) (env : CreateEnv) : Bounded (sysKobjectCreate w p proc type env) := by
  apply (kobjectCreate_bounded w proc type env).bind
  rintro ⟨res, w'⟩ -
  cases res with
  | error ret => exact bounded_ok _
  | ok out =>
    unfold attach
    rw [htab]
    exact (handleAlloc_bounded hok _ _ _).bind fun _ _ => bounded_ok _

theorem sysKobjectSend_bounded_iff (htab : proc.tables = [table]) (hlo : -32768 ≤ h)
    (hhi : h < 32768) (env : CallEnv) : Bounded (sysKobjectSend w proc h env) ↔ handleInPage h := by
  rw [← getKobject_bounded_iff table w.ref hlo hhi, ← htab]
  unfold sysKobjectSend
  refine (bounded_bind_iff ?_).trans (bounded_bind_iff ?_)
  · rintro ⟨res, w'⟩
    cases res with
    | error ret => exact bounded_ok _
    | ok out => exact sendEnd_bounded _ _ _ _
  · intro got
    split <;> exact bounded_ok _

theorem sysKobjectClose_bounded_iff (htab : proc.tables = [table]) (hlo : -32768 ≤ h)
    (hhi : h < 32768) (p : Nat) : Bounded (sysKobjectClose w p proc h) ↔ handleInPage h := by
  rw [← handleFree_bounded_iff table hlo hhi, ← htab]
  exact bounded_bind_iff fun _ => bounded_ok _

theorem run_bounded_iff (htab : proc.tables = [table]) (hok : TableOk table) (p : Nat)
    (regs : GpRegs) (env : CallEnv) (fn : SyscallFn) : Bounded (fn.run w p proc regs env) ↔
      (fn = .kobjectClose ∨ fn = .kobjectSend → handleInPage (i16 regs.x0.toNat)) := by
  obtain ⟨hlo, hhi⟩ := i16_bounds regs.x0.toNat
  cases fn with
  | kobjectCreate =>
    refine iff_of_true ?_ (by simp)
    exact (sysKobjectCreate_bounded htab hok p _ env.create).bind fun _ _ => bounded_ok _
  | kobjectSend =>
    simp only [SyscallFn.run, i16_i32]
    rw [bounded_bind_iff fun _ => bounded_ok _, sysKobjectSend_bounded_iff htab hlo hhi]
    simp
  | kobjectClose =>
    simp only [SyscallFn.run]
    rw [bounded_bind_iff fun _ => bounded_ok _, sysKobjectClose_bounded_iff htab hlo hhi]
    simp
  | _ => simp [SyscallFn.run]

/-- The table has an entry for every number that passes the check, and only two of
the entries use a handle. -/
theorem syscallTable_get : ∀ n < 21, ∃ fn, syscallTable[n]? = some fn ∧
    (fn = .kobjectClose ∨ fn = .kobjectSend ↔ n = 2 ∨ n = 4) := by
  decide

/-- **Dispatch.** In every reachable state the dispatch path of a process's system
call stays in bounds exactly for the legal register contents. -/
theorem syscall_bounded_iff {w : World} (hw : Steps step (fun _ _ => True) start w) {p : Nat}
    {proc : Proc} (hproc : w.procs[p]? = some proc) (regs : GpRegs) (env : CallEnv) :
    Bounded (syscallHandler w p proc regs env) ↔ Legal regs := by
  have hshape : Shape w := hw.invariant start_shape fun _ _ _ hi _ hst => shape_step hi hst
  obtain ⟨table, htab, hok, -⟩ := hshape.procs proc (List.mem_of_getElem? hproc)
  unfold syscallHandler Legal nrSyscalls
  generalize i32 regs.x8.toNat = nr
  by_cases hge : 21 ≤ nr
  · simp [hge]
  by_cases hneg : nr < 0
  · simp [hge, hneg]
  obtain ⟨n, rfl⟩ := Int.eq_ofNat_of_zero_le (Int.not_lt.1 hneg)
  obtain ⟨fn, hfn, hiff⟩ := syscallTable_get n (by omega)
  simp only [hge, hneg, if_false, Int.toNat_natCast, hfn]
  rw [run_bounded_iff htab hok, hiff]
  constructor
  · intro h
    exact .inr ⟨by omega, fun hn => h (by omega)⟩
  · rintro (h | ⟨-, h⟩) hn
    · exact h.elim
    · exact h (by omega)

/-- A call by the root service, right after boot: a send on its standard output. -/
def bootEnv : CallEnv := ⟨⟨⟨0, 0⟩, false, false, none⟩, (none, 0), 0⟩

theorem syscall_bounded_iff_boot :
    ∃ w proc, Steps step (fun _ _ => True) start w ∧ w.procs[0]? = some proc ∧
      Bounded (syscallHandler w 0 proc ⟨2, 0, 0, 4⟩ bootEnv) := by
  have hval : (step start (.boot ⟨0, false⟩)).map (fun w => w.procs[0]?.isSome) = some true := by
    decide +kernel
  obtain ⟨w, hw, hsome⟩ := Option.map_eq_some_iff.1 hval
  obtain ⟨proc, hproc⟩ := Option.isSome_iff_exists.1 hsome
  have hrun : Steps step (fun _ _ => True) start w := .tail _ .refl trivial hw
  refine ⟨w, proc, hrun, hproc, (syscall_bounded_iff hrun hproc _ _).2 (.inr ?_)⟩
  exact ⟨by decide, fun _ => .inl (by decide)⟩

def faultOf : Except Fault α → Option Fault
  | .error e => some e
  | .ok _ => none

theorem error_of_faultOf {e : Fault} (h : faultOf x = some e) : x = .error e := by
  cases x with
  | error e' =>
    cases h
    rfl
  | ok a => cases h

/-- Call number 0xffffffff is -1 and passes the check; a close of handle 255 follows
the null `next` of the only table. -/
theorem syscall_out_of_bounds :
    ∃ w proc, Steps step (fun _ _ => True) start w ∧ w.procs[0]? = some proc ∧
      syscallHandler w 0 proc ⟨0, 0, 0, 0xffffffff⟩ bootEnv = .error .outOfBounds ∧
      syscallHandler w 0 proc ⟨255, 0, 0, 2⟩ bootEnv = .error .nullTable := by
  have hval : (step start (.boot ⟨0, false⟩)).map (fun w => w.procs[0]?.map fun proc =>
      (faultOf (syscallHandler w 0 proc ⟨0, 0, 0, 0xffffffff⟩ bootEnv),
        faultOf (syscallHandler w 0 proc ⟨255, 0, 0, 2⟩ bootEnv))) =
      some (some (some .outOfBounds, some .nullTable)) := by decide +kernel
  obtain ⟨w, hw, hv⟩ := Option.map_eq_some_iff.1 hval
  obtain ⟨proc, hproc, hv⟩ := Option.map_eq_some_iff.1 hv
  obtain ⟨hnr, hclose⟩ := Prod.mk.injEq .. ▸ hv
  have hrun : Steps step (fun _ _ => True) start w := .tail _ .refl trivial hw
  exact ⟨w, proc, hrun, hproc, error_of_faultOf hnr, error_of_faultOf hclose⟩

end SpringOs.Syscall
