import SpringOs.Handle
import SpringOs.Lib.RefCount

/-!
Kernel objects: `uspace/kobject.c` with the create callbacks of `pma.c` and
`proc.c` and the process creation they reach.

A `World` holds every kobject (numbered from 0, which is `stdio_kobj`), every
process with its handle tables, and the system calls that are between two of their
critical sections. `sys_kobject_create` and `sys_kobject_send` have two parts each;
between them other processes run. Memory is not modelled: what an allocation and a
copy from user space yield is an argument, as is the word a fresh `struct proc`
has where its count will be.
-/

namespace SpringOs.Kobject
open Kernel Lib.Word Lib.Machine Lib.RefCount Handle
open Function (update)

/-! ## State -/

/-- The `ops` of a kobject: null, never written, or the table of a type. -/
inductive KobjOps
  | null
  | unset
  | stdio
  | pma
  | process
  deriving DecidableEq

/-- `roots`: the name reads "roots". -/
structure Proc where
  tables : List HandleTable
  roots : Bool

/-- A system call between its two parts. `taken`: `get_kobject` took a reference. -/
inductive Call
  | create (proc kobj : Nat) (right : UInt32)
  | send (kobj : Option Nat) (right : UInt32) (taken : Bool)
  deriving DecidableEq

/-- `released` and `dropped` are history: how often a kobject was released, and
whether its last holder has gone. -/
structure World where
  nobj : Nat
  ref : Nat → Int
  ops : Nat → KobjOps
  procs : List Proc
  calls : List Call
  released : Nat → Nat
  dropped : Nat → Bool

def stdioKobj : Nat := 0

/-- After `stdio_kobject_init`, before the root service. -/
def start : World :=
  { nobj := 1
    ref := update (fun _ => 0) stdioKobj 1
    ops := fun _ => .stdio
    procs := []
    calls := []
    released := fun _ => 0
    dropped := fun _ => false }

/-! ## `kobject.c` -/

/-- `kobject_release`: only `pma` and `process` have a release callback. -/
def kobjectRelease : KobjOps → Except Fault Unit
  | .null | .stdio => .ok ()
  | .unset => .error .wildAccess
  | .pma | .process => .error (.todo .objectRelease)

def kobjectPut (w : World) : Option Nat → Except Fault World
  | none => .ok w
  | some kobj =>
    if w.nobj ≤ kobj then .error .wildAccess
    else
      let (value, old) := atomicDecSetNegtiveIfZero (w.ref kobj)
      if 0 < old then
        if old = 1 then do
          kobjectRelease (w.ops kobj)
          .ok { w with
            ref := update w.ref kobj value
            released := update w.released kobj (w.released kobj + 1) }
        else .ok { w with ref := update w.ref kobj value }
      else .error (.assertion .kobjectPut)

/-- `kobject_send`; `sent` is what `stdio_send` returns. -/
def kobjectSend (w : World) (sent : Int) : Option Nat → Except Fault Int
  | none => .error .nullDeref
  | some kobj =>
    if w.nobj ≤ kobj then .error .wildAccess
    else match w.ops kobj with
      | .null => .ok (-eacces)
      | .unset => .error .wildAccess
      | .stdio => .ok sent
      | .pma | .process => .error (.todo .objectSend)

/-- The enumeration of `kobject_uapi.h`, where the code names a member. -/
def kobjTypeProcess : Int := 1
def kobjTypePma : Int := 3
def kobjTypeMax : Int := 13

/-! ## Create callbacks -/

/-- The members of `struct pma_create_arg` that are read. -/
structure PmaCreateArg where
  type : Int
  size : Nat

/-- What a fresh `struct proc` holds where nothing is written: the count of its
kobject, and whether its name reads "roots". -/
structure ProcMem where
  ref : Int
  roots : Bool

/-- What a creation finds around it: the argument in user memory, whether
`kallocz` and `page_allocn` succeed, and the memory of a new process. -/
structure CreateEnv where
  arg : PmaCreateArg
  object : Bool
  pages : Bool
  proc : Option ProcMem

/-- What a create callback hands back: an error, or `*kobj` and `*right`. -/
abbrev Created := Except Int (Nat × UInt32)

def pmaRight : UInt32 := 0x1f
def procRight : UInt32 := 0x11

/-- A new kobject, numbered `w.nobj`. -/
def World.addKobject (w : World) (ref : Int) (ops : KobjOps) : World :=
  { w with
    nobj := w.nobj + 1
    ref := update w.ref w.nobj ref
    ops := update w.ops w.nobj ops }

/-- `create_pma_normal`: `kallocz` clears the count. -/
def createPmaNormal (w : World) (env : CreateEnv) : Created × World :=
  if env.arg.size = 0 ∨ env.arg.size % 4096 ≠ 0 then (.error (-einval), w)
  else if env.object = false then (.error (-enomem), w)
  else if env.pages = false then (.error (-enomem), w)
  else (.ok (w.nobj, pmaRight), w.addKobject 0 .pma)

/-- `create_pma`. -/
def createPma (w : World) (proc : Proc) (env : CreateEnv) : Except Fault (Created × World) :=
  if proc.roots = false then .ok (.error (-eperm), w)
  else if 5 ≤ env.arg.type then .ok (.error (-einval), w)
  else if 1 ≤ env.arg.type then .error (.todo .createPma)
  else if env.arg.type = 0 then .ok (createPmaNormal w env)
  else .ok (.error (-1), w)

/-- `create_proc` with `proc_alloc`: the new process's kobject, whose count is
whatever its memory held. A failed allocation is written through. -/
def createProc (w : World) (mem : Option ProcMem) (named : Bool) : Except Fault (Nat × World) :=
  match mem with
  | none => .error .nullDeref
  | some mem => do
    let (tables, ref) ←
      initProcHandles (w.addKobject (i32 mem.ref) .unset).ref w.nobj stdioKobj
    .ok (w.nobj, { w.addKobject (i32 mem.ref) .unset with
      ref := ref
      procs := w.procs ++ [⟨tables, mem.roots || named⟩] })

/-- `kobject_create_proc`: `kobject_init` sets the ops, not the count. -/
def kobjectCreateProc (w : World) (proc : Proc) (env : CreateEnv) :
    Except Fault (Created × World) :=
  if proc.roots = false then .ok (.error (-eperm), w)
  else do
    let (kobj, w) ← createProc w env.proc false
    .ok (.ok (kobj, procRight), { w with ops := update w.ops kobj .process })

inductive CreateCb
  | process
  | pma
  deriving DecidableEq

/-- `kobj_create_cbs` after `init_kobject_type`. -/
def kobjCreateCbs : List (Option CreateCb) :=
  [none, some .process, none, some .pma, none, none, none, none, none, none, none, none, none]

/-- `kobject_create`. -/
def kobjectCreate (w : World) (proc : Proc) (type : Int) (env : CreateEnv) :
    Except Fault (Created × World) :=
  if type ≤ 0 ∨ kobjTypeMax ≤ type then .ok (.error (-enoent), w)
  else match kobjCreateCbs[type.toNat]? with
    | none => .error .outOfBounds
    | some none => .ok (.error (-eopnotsupp), w)
    | some (some .process) => kobjectCreateProc w proc env
    | some (some .pma) => createPma w proc env

/-! ## System calls -/

def World.setTables (w : World) (p : Nat) (tables : List HandleTable) : World :=
  { w with procs := w.procs.modify p fun proc => { proc with tables := tables } }

/-- The second part of `sys_kobject_create`, `handle_alloc`. -/
def attach (w : World) (p : Nat) (proc : Proc) (kobj : Nat) (right : UInt32) :
    Except Fault (Int × World) := do
  let (handle, tables, ref) ← handleAlloc proc.tables w.ref kobj right
  .ok (handle, { w.setTables p tables with ref := ref })

/-- The first part of `sys_kobject_send`, `get_kobject`: an error, or the locals it
goes on with and whether a reference was taken. -/
def sendBegin (w : World) (proc : Proc) (handle : Int) (junk : Option Nat × UInt32) :
    Except Fault (Except Int (Option Nat × UInt32 × Bool) × World) := do
  let got ← getKobject proc.tables w.ref handle
  match sendTarget got junk with
  | .error ret => .ok (.error ret, { w with ref := got.ref })
  | .ok (kobj, right) => .ok (.ok (kobj, right, got.out.isSome), { w with ref := got.ref })

/-- The rest of `sys_kobject_send`. -/
def sendEnd (w : World) (kobj : Option Nat) (right : UInt32) (sent : Int) :
    Except Fault (Int × World) := do
  let ret ← (if right &&& kobjRightWrite = 0 then .ok (-eperm) else kobjectSend w sent kobj)
  let w ← kobjectPut w kobj
  .ok (ret, w)

/-- `sys_kobject_close`: `kobject_close` does nothing and returns 0. -/
def sysKobjectClose (w : World) (p : Nat) (proc : Proc) (handle : Int) :
    Except Fault (Int × World) := do
  let (ret, _, tables) ← handleFree proc.tables handle
  .ok (ret, w.setTables p tables)

end SpringOs.Kobject
