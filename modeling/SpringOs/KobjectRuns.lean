import SpringOs.Kobject

/-!
Reference counts over whole runs of `sys_kobject_create`, `sys_kobject_send` and
`sys_kobject_close`, by any processes and with calls in progress.

* `Effect`, `advance_effect`: all a critical section can do to the world;
* `shape_step`: what holds in every run;
* `counted_step_iff`: the critical sections after which every count is still exact;
* **`kobject_refs_exact`**: the same along runs;
* `kobject_close_leaks`: a close empties a slot and leaves the count.
-/

namespace SpringOs.KobjectRuns
open Kernel Lib.Word Lib.Machine Lib.RefCount Handle Kobject
open Function (update update_self update_of_ne update_apply)

variable {table : HandleTable} {ref : Nat → Int} {tables : List HandleTable} {w' : World}
  {proc : Proc} {n k : Nat} {call : Call}

/-! ## Holders -/

def slots (kobj : Nat) (table : HandleTable) : Nat :=
  table.descs.toList.countP fun hd => hd.kobj == some kobj

def procSlots (kobj : Nat) (proc : Proc) : Nat := (proc.tables.map (slots kobj)).sum

/-- Calls that took a reference and have not returned it. -/
def inProgress (kobj : Nat) : Call → Bool
  | .send (some k) _ true => k == kobj
  | _ => false

/-- The handle slots of all processes that hold a kobject, the references of calls
in progress, and the one `stdio_kobject_init` took. -/
def holders (w : World) (kobj : Nat) : Nat :=
  (w.procs.map (procSlots kobj)).sum + w.calls.countP (inProgress kobj) +
    if kobj = stdioKobj then 1 else 0

def count (w : World) (kobj : Nat) : Count :=
  ⟨w.ref kobj, holders w kobj, w.released kobj, w.dropped kobj⟩

def Counted (w : World) : Prop := ∀ kobj < w.nobj, Exact (count w kobj)

/-! ## Runs -/

/-- `boot` is `create_root_proc`; `junk` is what the locals of `sys_kobject_send`
held before it; `sent` is what `stdio_send` returns. -/
inductive Op
  | boot (mem : ProcMem)
  | createBegin (proc : Nat) (type : Int) (env : CreateEnv)
  | createEnd (call : Nat)
  | sendBegin (proc : Nat) (handle : Int) (junk : Option Nat × UInt32)
  | sendEnd (call : Nat) (sent : Int)
  | close (proc : Nat) (handle : Int)

/-- `sys_kobject_create` after `kobject_create`: it returns the error, or goes on to
its second part. -/
def createPend (p : Nat) : Created × World → World
  | (.error _, w) => w
  | (.ok (kobj, right), w) => { w with calls := w.calls ++ [.create p kobj right] }

/-- One critical section; none where the kernel stops or there is no such caller. -/
def advance (w : World) : Op → Option World
  | .boot mem =>
    if w.procs.isEmpty then (createProc w (some mem) true).toOption.map Prod.snd else none
  | .createBegin p type env =>
    w.procs[p]?.bind fun proc =>
      (kobjectCreate w proc type env).toOption.map (createPend p)
  | .createEnd i =>
    match w.calls[i]? with
    | some (.create p kobj right) =>
      w.procs[p]?.bind fun proc =>
        (attach w p proc kobj right).toOption.map fun res =>
          { res.2 with calls := res.2.calls.eraseIdx i }
    | _ => none
  | .sendBegin p handle junk =>
    w.procs[p]?.bind fun proc =>
      (Kobject.sendBegin w proc (i16 handle) junk).toOption.map fun
        | (.error _, w) => w
        | (.ok (kobj, right, taken), w) => { w with calls := w.calls ++ [.send kobj right taken] }
  | .sendEnd i sent =>
    match w.calls[i]? with
    | some (.send kobj right _) =>
      (Kobject.sendEnd w kobj right sent).toOption.map fun res =>
        { res.2 with calls := res.2.calls.eraseIdx i }
    | _ => none
  | .close p handle =>
    w.procs[p]?.bind fun proc =>
      (sysKobjectClose w p proc (i16 handle)).toOption.map Prod.snd

/-- The history after a step from `w` to `w'`. -/
def note (w w' : World) : World :=
  { w' with dropped := fun kobj =>
      w.dropped kobj || (decide (0 < holders w kobj) && holders w' kobj == 0) }

def step (w : World) (op : Op) : Option World := (advance w op).map (note w)

def slotOf (w : World) (p : Nat) (handle : Int) : Option (Nat × UInt32) :=
  w.procs[p]?.bind fun proc => proc.tables.head?.bind fun table => table.at handle

/-- A process is made over memory whose count word is 0, and its three stdio handles
fit the count of `stdio_kobj`. -/
def spawnOk (w : World) (mem : ProcMem) : Prop :=
  i32 mem.ref = 0 ∧ w.ref stdioKobj + 3 < 2147483648

/-- The critical sections that keep every count exact: no handle is closed, no send
ends that had found an empty slot, no process starts with a dirty count, and no
count wraps. -/
def okStep (w : World) : Op → Prop
  | .boot mem => spawnOk w mem
  | .createBegin p type env => ∀ proc mem, w.procs[p]? = some proc → proc.roots = true →
      type = kobjTypeProcess → env.proc = some mem → spawnOk w mem
  | .createEnd i => ∀ p kobj right, w.calls[i]? = some (.create p kobj right) →
      w.ref kobj + 1 < 2147483648
  | .sendBegin p handle _ => ∀ kobj right, slotOf w p (i16 handle) = some (kobj, right) →
      w.ref kobj + 1 < 2147483648
  | .sendEnd i _ => ∀ kobj right, w.calls[i]? ≠ some (.send (some kobj) right false)
  | .close p handle => slotOf w p (i16 handle) = none

/-! ## The invariant of all runs -/

/-- Kobjects a call in progress goes on with; what an untaken send has is junk. -/
def Names (n : Nat) : Call → Prop
  | .create _ kobj _ => kobj < n
  | .send (some kobj) _ true => kobj < n
  | .send _ _ _ => True

/-- A process has one table page, and it names kobjects that exist. -/
def ProcOk (n : Nat) (proc : Proc) : Prop :=
  ∃ table, proc.tables = [table] ∧ TableOk table ∧
    ∀ h kobj right, table.at h = some (kobj, right) → kobj < n

structure Shape (w : World) : Prop where
  stdio : stdioKobj < w.nobj
  procs : ∀ proc ∈ w.procs, ProcOk w.nobj proc
  calls : ∀ call ∈ w.calls, Names w.nobj call
  word : ∀ kobj, w.ref kobj < 2147483648
  unborn : ∀ kobj, w.nobj ≤ kobj → w.released kobj = 0 ∧ w.dropped kobj = false

/-! ## One table page -/

/-- `table'` is `table` with one more slot, for `kobj`. -/
structure Took (table table' : HandleTable) (kobj : Nat) : Prop where
  ok : TableOk table'
  slots : ∀ k, slots k table' = slots k table + if k = kobj then 1 else 0
  names : ∀ h k right, table'.at h = some (k, right) → k = kobj ∨ table.at h = some (k, right)

variable {kobj p : Nat} {right : UInt32} {w : World}

theorem slots_eq_zero (h : ∀ hd right, table.at hd ≠ some (kobj, right)) :
    slots kobj table = 0 := by
  rw [slots, Vector.countP_toList, Vector.countP_eq_zero]
  intro hd hmem heq
  obtain ⟨i, hi, rfl⟩ := Vector.mem_iff_getElem.1 hmem
  apply h i table.descs[i].right
  rw [at_of_lt hi, beq_iff_eq.1 heq]
  rfl

variable {i own : Nat} {ref' : Nat → Int}

theorem took_write (hok : TableOk table) (hi : i < 255) (hat : table.at i = none) (kobj : Nat)
    (right : UInt32) : Took table (table.write i ⟨some kobj, right⟩ (table.free - 1)) kobj := by
  have hnull : table.descs[i].kobj = none := by simpa [at_of_lt hi] using hat
  constructor
  · exact hok.take hi hat kobj right
  · intro k
    unfold slots
    rw [descs_write hi, Vector.countP_toList, Vector.countP_toList, Vector.countP_set hi]
    by_cases hk : k = kobj
    · simp [hnull, hk]
    · simp [hnull, hk, Ne.symm hk]
  · intro h k r hk
    rw [at_write hi] at hk
    split at hk
    · simp at hk
      exact .inl hk.1.symm
    · exact .inr hk

theorem slots_clear (hi : i < 255) (hat : table.at i = some (kobj, right)) (free : Int) (k : Nat) :
    slots k table =
      slots k (table.write i ⟨none, kobjRightNone⟩ free) + if k = kobj then 1 else 0 := by
  have hsome : table.descs[i].kobj = some kobj := by
    rw [at_of_lt hi] at hat
    cases hk : table.descs[i].kobj with
    | none => simp [hk] at hat
    | some k' =>
      simp [hk] at hat
      simp [hat.1]
  unfold slots
  rw [descs_write hi, Vector.countP_toList, Vector.countP_toList, Vector.countP_set hi]
  by_cases he : k = kobj
  · subst he
    have hpos : 0 < table.descs.countP fun hd => hd.kobj == some k :=
      Vector.countP_pos_iff.2 ⟨_, Vector.getElem_mem hi, by simp [hsome]⟩
    simp [hsome]
    omega
  · simp [hsome, he, Ne.symm he]

theorem allocExpect_took (hok : TableOk table) {expected : Int} {s : List HandleTable × (Nat → Int)}
    (h : allocExpect kobj right expected ([table], ref) = .ok s) :
    ∃ table', Took table table' kobj ∧ 0 ≤ ref kobj ∧
      s = ([table'], update ref kobj (i32 (1 + ref kobj))) := by
  unfold allocExpect at h
  obtain ⟨⟨handle, tables, ref'⟩, halloc, h⟩ := ok_of_bind h
  obtain ⟨i, hi, hat, -, rfl, hr, rfl⟩ := handleAlloc_ok hok halloc
  simp only at h
  split at h
  · cases h
    exact ⟨_, took_write hok hi hat kobj right, hr, rfl⟩
  · cases h

structure Spawned (ref : Nat → Int) (own : Nat) (table : HandleTable) (ref' : Nat → Int) :
    Prop where
  ok : TableOk table
  slots : ∀ k, slots k table = (if k = own then 1 else 0) + if k = stdioKobj then 3 else 0
  names : ∀ h k right, table.at h = some (k, right) → k = own ∨ k = stdioKobj
  own_nonneg : 0 ≤ ref own
  own_ref : ref' own = i32 (1 + ref own)
  stdio_nonneg : 0 ≤ ref stdioKobj ∧ 0 ≤ i32 (1 + ref stdioKobj) ∧
    0 ≤ i32 (1 + i32 (1 + ref stdioKobj))
  stdio_ref : ref' stdioKobj = i32 (1 + i32 (1 + i32 (1 + ref stdioKobj)))
  rest : ∀ k, k ≠ own → k ≠ stdioKobj → ref' k = ref k

theorem word_update (h : ∀ k, ref k < 2147483648) (kobj : Nat) {v : Int} (hv : v < 2147483648)
    (k : Nat) : update ref kobj v k < 2147483648 := by
  rw [update_apply]
  split
  · exact hv
  · exact h k

theorem i32_lt (n : Int) : i32 n < 2147483648 := by
  unfold i32; omega

theorem Spawned.word (h : Spawned ref own table ref') (hw : ∀ k, ref k < 2147483648) (k : Nat) :
    ref' k < 2147483648 := by
  by_cases hk : k = own
  · rw [hk, h.own_ref]
    exact i32_lt _
  by_cases hk0 : k = stdioKobj
  · rw [hk0, h.stdio_ref]
    exact i32_lt _
  · rw [h.rest k hk hk0]
    exact hw k

theorem initProcHandles_spawned (hne : own ≠ stdioKobj)
    (h : initProcHandles ref own stdioKobj = .ok (tables, ref')) :
    ∃ table, tables = [table] ∧ Spawned ref own table ref' := by
  unfold initProcHandles at h
  obtain ⟨s1, h1, h⟩ := ok_of_bind h
  obtain ⟨t1, took1, hr1, rfl⟩ := allocExpect_took newHandleTable_ok h1
  obtain ⟨s2, h2, h⟩ := ok_of_bind h
  obtain ⟨t2, took2, hr2, rfl⟩ := allocExpect_took took1.ok h2
  obtain ⟨s3, h3, h⟩ := ok_of_bind h
  obtain ⟨t3, took3, hr3, rfl⟩ := allocExpect_took took2.ok h3
  obtain ⟨t4, took4, hr4, heq⟩ := allocExpect_took took3.ok h
  obtain ⟨rfl, rfl⟩ := Prod.mk.injEq .. ▸ heq
  simp only [update_self, update_of_ne hne.symm] at hr2 hr3 hr4
  refine ⟨t4, rfl, took4.ok, ?_, ?_, hr1, ?_, ⟨hr2, hr3, hr4⟩, ?_, ?_⟩
  · intro k
    have h0 : slots k (newHandleTable 0) = 0 :=
      slots_eq_zero fun hd right => by simp [at_newHandleTable]
    rw [took4.slots, took3.slots, took2.slots, took1.slots, h0]
    split <;> split <;> rfl
  · intro hd k right hat
    obtain hk | hat := took4.names hd k right hat
    · exact .inr hk
    obtain hk | hat := took3.names hd k right hat
    · exact .inr hk
    obtain hk | hat := took2.names hd k right hat
    · exact .inr hk
    obtain hk | hat := took1.names hd k right hat
    · exact .inl hk
    · simp [at_newHandleTable] at hat
  · simp [update_of_ne hne]
  · simp [update_of_ne hne.symm]
  · intro k hk hk0
    simp [update_of_ne hk, update_of_ne hk0]

/-! ## What a critical section can do -/

/-- The world after a `kobject_put` that did not stop the kernel. -/
def afterPut (w : World) (kobj : Nat) : World :=
  if w.ref kobj = 1 then { w with
    ref := update w.ref kobj (-1)
    released := update w.released kobj (w.released kobj + 1) }
  else { w with ref := update w.ref kobj (w.ref kobj - 1) }

inductive Effect (w : World) : Op → World → Prop
  | none {op : Op} (hok : okStep w op) : Effect w op w
  | spawn {op : Op} {mem : ProcMem} {table : HandleTable} {ref : Nat → Int} (roots : Bool)
      (ops : Nat → KobjOps) (calls : List Call) (hok : okStep w op ↔ spawnOk w mem)
      (hspawn : Spawned (update w.ref w.nobj (i32 mem.ref)) w.nobj table ref)
      (hcalls : ∀ call ∈ calls, ∃ p right, call = .create p w.nobj right) :
      Effect w op { w with
        nobj := w.nobj + 1, ref := ref, ops := ops, procs := w.procs ++ [⟨[table], roots⟩],
        calls := w.calls ++ calls }
  | make {op : Op} {p : Nat} {right : UInt32} {ops : Nat → KobjOps} (hok : okStep w op) :
      Effect w op { w with
        nobj := w.nobj + 1, ref := update w.ref w.nobj 0, ops := ops,
        calls := w.calls ++ [.create p w.nobj right] }
  | attach {i p kobj : Nat} {right : UInt32} {proc : Proc} {table table' : HandleTable}
      (hcall : w.calls[i]? = some (.create p kobj right)) (hproc : w.procs[p]? = some proc)
      (htab : proc.tables = [table]) (htook : Took table table' kobj) (href : 0 ≤ w.ref kobj) :
      Effect w (.createEnd i) { w.setTables p [table'] with
        ref := update w.ref kobj (i32 (1 + w.ref kobj)), calls := w.calls.eraseIdx i }
  | take {p kobj : Nat} {handle : Int} {right : UInt32} {junk : Option Nat × UInt32}
      (hslot : slotOf w p (i16 handle) = some (kobj, right)) (href : 0 ≤ w.ref kobj) :
      Effect w (.sendBegin p handle junk) { w with
        ref := update w.ref kobj (i32 (1 + w.ref kobj)),
        calls := w.calls ++ [.send (some kobj) right true] }
  | untaken {p : Nat} {handle : Int} {junk : Option Nat × UInt32}
      (hslot : slotOf w p (i16 handle) = none) :
      Effect w (.sendBegin p handle junk) { w with
        calls := w.calls ++ [.send junk.1 junk.2 false] }
  | endNull {i : Nat} {sent : Int} {right : UInt32} {taken : Bool}
      (hcall : w.calls[i]? = some (.send .none right taken)) :
      Effect w (.sendEnd i sent) { w with calls := w.calls.eraseIdx i }
  | put {i kobj : Nat} {sent : Int} {right : UInt32} {taken : Bool}
      (hcall : w.calls[i]? = some (.send (some kobj) right taken)) (hkobj : kobj < w.nobj)
      (href : 0 < w.ref kobj) :
      Effect w (.sendEnd i sent) { afterPut w kobj with calls := w.calls.eraseIdx i }
  | close {p i kobj : Nat} {handle : Int} {right : UInt32} {proc : Proc} {table : HandleTable}
      (hproc : w.procs[p]? = some proc) (htab : proc.tables = [table]) (hi : i < 255)
      (hhandle : i16 handle = i) (hat : table.at i = some (kobj, right)) :
      Effect w (.close p handle)
        (w.setTables p [table.write i ⟨.none, kobjRightNone⟩ (table.free + 1)])

theorem createProc_effect (hw : Shape w) {mem : Option ProcMem} {named : Bool}
    (h : createProc w mem named = .ok (kobj, w')) :
    kobj = w.nobj ∧ ∃ m table ref, mem = some m ∧
      Spawned (update w.ref w.nobj (i32 m.ref)) w.nobj table ref ∧
      w' = { w.addKobject (i32 m.ref) .unset with
        ref := ref, procs := w.procs ++ [⟨[table], m.roots || named⟩] } := by
  cases mem with
  | none => cases h
  | some m =>
    obtain ⟨⟨tables, ref⟩, hinit, h⟩ := ok_of_bind h
    obtain ⟨table, rfl, hspawn⟩ := initProcHandles_spawned hw.stdio.ne' hinit
    cases h
    exact ⟨rfl, m, table, ref, rfl, hspawn, rfl⟩

theorem slotOf_eq (hproc : w.procs[p]? = some proc) (htab : proc.tables = [table]) (h : Int) :
    slotOf w p h = table.at h := by
  simp [slotOf, hproc, htab]

theorem slotOf_lt (hw : Shape w) {h : Int} (hslot : slotOf w p h = some (kobj, right)) :
    kobj < w.nobj := by
  obtain ⟨proc, hproc, hslot⟩ := Option.bind_eq_some_iff.1 hslot
  obtain ⟨table, htab, -, hnames⟩ := hw.procs proc (List.mem_of_getElem? hproc)
  rw [htab] at hslot
  exact hnames h kobj right hslot

theorem setTables_self (hproc : w.procs[p]? = some proc) (htab : proc.tables = tables) :
    w.setTables p tables = w := by
  have hprocs : (w.procs.modify p fun proc => { proc with tables := tables }) = w.procs := by
    apply List.ext_getElem?
    intro i
    rw [List.getElem?_modify]
    by_cases hi : p = i
    · subst hi
      simp [hproc, ← htab]
    · simp [hi]
  unfold World.setTables
  rw [hprocs]

theorem kobjectPut_effect (h : kobjectPut w (some kobj) = .ok w') :
    kobj < w.nobj ∧ 0 < w.ref kobj ∧ w' = afterPut w kobj := by
  simp only [kobjectPut, atomicDecSetNegtiveIfZero] at h
  split at h
  · cases h
  rename_i hlt
  by_cases hpos : w.ref kobj ≤ 0
  · simp [hpos, Int.not_lt.2 hpos] at h
  by_cases hone : w.ref kobj = 1
  · simp [hone] at h
    obtain ⟨u, -, h⟩ := ok_of_bind h
    cases h
    exact ⟨by omega, by omega, by simp [afterPut, hone]⟩
  · have hne : ¬ w.ref kobj - 1 = 0 := by omega
    simp only [hpos, hne, hone, if_false] at h
    rw [if_pos (by omega)] at h
    cases h
    exact ⟨by omega, by omega, by simp [afterPut, hone]⟩

theorem process_of_cbs (h : kobjCreateCbs[n]? = some (some .process)) : n = 1 := by
  have hlt : n < kobjCreateCbs.length := (List.getElem?_eq_some_iff.1 h).1
  have hall : ∀ n < kobjCreateCbs.length, kobjCreateCbs[n]? = some (some .process) → n = 1 := by
    decide
  exact hall n hlt h

variable {op : Op} {w : World} {p kobj m : Nat} {env : CreateEnv} {res : Created × World}

theorem createPma_effect (hok : okStep w op) (h : createPma w proc env = .ok res) :
    Effect w op (createPend p res) := by
  have hres : (∃ ret, res = (.error ret, w)) ∨
      res = (.ok (w.nobj, pmaRight), w.addKobject 0 .pma) := by
    unfold createPma createPmaNormal at h
    grind
  obtain ⟨ret, rfl⟩ | rfl := hres
  · exact .none hok
  · exact .make hok

theorem kobjectCreate_effect (hw : Shape w) {type : Int} (hproc : w.procs[p]? = some proc)
    (h : kobjectCreate w proc type env = .ok res) :
    Effect w (.createBegin p type env) (createPend p res) := by
  -- a creation that makes no process meets its condition for want of one
  have hvac : type ≠ kobjTypeProcess ∨ proc.roots = false →
      okStep w (.createBegin p type env) := by
    intro hno proc' mem hproc' hroots htype _
    rw [hproc] at hproc'
    cases hproc'
    cases hno with
    | inl hne => exact absurd htype hne
    | inr hr => simp [hr] at hroots
  unfold kobjectCreate at h
  split at h
  · cases h
    exact .none (hvac (.inl (by unfold kobjTypeMax at *; unfold kobjTypeProcess; omega)))
  split at h
  · cases h
  · rename_i hcb
    cases h
    refine .none (hvac (.inl ?_))
    rintro rfl
    cases hcb
  · rename_i hcb
    have htype : type = kobjTypeProcess := by
      have := process_of_cbs hcb
      unfold kobjTypeProcess
      omega
    unfold kobjectCreateProc at h
    split at h
    · rename_i hroots
      cases h
      exact .none (hvac (.inr hroots))
    · rename_i hroots
      obtain ⟨⟨kobj, w1⟩, hc, h⟩ := ok_of_bind h
      obtain ⟨rfl, m, table, ref, hm, hspawn, rfl⟩ := createProc_effect hw hc
      cases h
      refine .spawn (m.roots || false) _ [.create p w.nobj procRight] ?_ hspawn (by simp)
      constructor
      · intro hok
        exact hok proc m hproc (by simpa using hroots) htype hm
      · intro hok proc' mem _ _ _ hmem
        rw [hm] at hmem
        cases hmem
        exact hok
  · rename_i hcb
    refine createPma_effect (hvac (.inl ?_)) h
    rintro rfl
    cases hcb

theorem sendBegin_effect (hw : Shape w) {handle : Int} {junk : Option Nat × UInt32}
    (h : advance w (.sendBegin p handle junk) = some w') :
    Effect w (.sendBegin p handle junk) w' := by
  obtain ⟨proc, hproc, h⟩ := Option.bind_eq_some_iff.1 h
  obtain ⟨⟨res, w1⟩, hs, rfl⟩ := Option.map_eq_some_iff.1 h
  obtain ⟨table, htab, -, -⟩ := hw.procs proc (List.mem_of_getElem? hproc)
  obtain ⟨got, hg, hs⟩ := ok_of_bind (ok_of_toOption hs)
  have hslot := slotOf_eq hproc htab (i16 handle)
  rw [htab, getKobject_single table w.ref (i16_bounds handle).1 (i16_bounds handle).2] at hg
  split at hg
  · cases hg
    cases hs
    refine .none fun kobj right hk => ?_
    rw [hslot, at_eq_none_of_le (by omega)] at hk
    cases hk
  split at hg
  · cases hg
  cases hat : table.at (i16 handle) with
  | none =>
    rw [hat] at hg hslot
    cases hg
    cases hs
    exact .untaken hslot
  | some kr =>
    obtain ⟨kobj, right⟩ := kr
    rw [hat] at hg hslot
    simp only at hg
    split at hg
    · rename_i hr
      cases hg
      cases hs
      exact .take hslot hr
    · cases hg

theorem advance_effect (hw : Shape w) (h : advance w op = some w') : Effect w op w' := by
  cases op with
  | boot mem =>
    simp only [advance] at h
    split at h
    · obtain ⟨⟨kobj, w1⟩, hc, rfl⟩ := Option.map_eq_some_iff.1 h
      obtain ⟨rfl, m, table, ref, hm, hspawn, rfl⟩ := createProc_effect hw (ok_of_toOption hc)
      cases hm
      simpa [World.addKobject] using Effect.spawn (mem.roots || true)
        (w.addKobject (i32 mem.ref) .unset).ops []
        (show okStep w (.boot mem) ↔ _ from Iff.rfl) hspawn (by simp)
    · cases h
  | createBegin p type env =>
    obtain ⟨proc, hproc, h⟩ := Option.bind_eq_some_iff.1 h
    obtain ⟨res, hc, rfl⟩ := Option.map_eq_some_iff.1 h
    exact kobjectCreate_effect hw hproc (ok_of_toOption hc)
  | createEnd i =>
    simp only [advance] at h
    split at h
    · rename_i p kobj right hcall
      obtain ⟨proc, hproc, h⟩ := Option.bind_eq_some_iff.1 h
      obtain ⟨⟨handle, w1⟩, ha, rfl⟩ := Option.map_eq_some_iff.1 h
      obtain ⟨table, htab, hok, -⟩ := hw.procs proc (List.mem_of_getElem? hproc)
      obtain ⟨⟨handle, tables, ref⟩, ha, hw1⟩ := ok_of_bind (ok_of_toOption ha)
      rw [htab] at ha
      obtain ⟨j, hj, hat, -, rfl, hr, rfl⟩ := handleAlloc_ok hok ha
      cases hw1
      exact .attach hcall hproc htab (took_write hok hj hat kobj right) hr
    · cases h
  | sendBegin p handle junk => exact sendBegin_effect hw h
  | sendEnd i sent =>
    simp only [advance] at h
    split at h
    · rename_i kobj right taken hcall
      obtain ⟨⟨ret, w1⟩, hs, rfl⟩ := Option.map_eq_some_iff.1 h
      obtain ⟨ret', -, hs⟩ := ok_of_bind (ok_of_toOption hs)
      obtain ⟨w2, hput, hs⟩ := ok_of_bind hs
      cases hs
      cases kobj with
      | none =>
        cases hput
        exact .endNull hcall
      | some kobj =>
        obtain ⟨hlt, hpos, rfl⟩ := kobjectPut_effect hput
        have hcalls : (afterPut w kobj).calls = w.calls := by
          unfold afterPut
          split <;> rfl
        rw [hcalls]
        exact .put hcall hlt hpos
    · cases h
  | close p handle =>
    obtain ⟨proc, hproc, h⟩ := Option.bind_eq_some_iff.1 h
    obtain ⟨⟨ret, w1⟩, hc, rfl⟩ := Option.map_eq_some_iff.1 h
    obtain ⟨⟨ret, out, tables⟩, hf, hc⟩ := ok_of_bind (ok_of_toOption hc)
    obtain ⟨table, htab, -, -⟩ := hw.procs proc (List.mem_of_getElem? hproc)
    rw [htab] at hf
    cases hc
    obtain ⟨-, -, rfl, hat⟩ | ⟨i, kr, hi, hh, hat, -, -, rfl⟩ :=
      handleFree_ok (i16_bounds handle).1 (i16_bounds handle).2 hf
    · rw [setTables_self hproc htab]
      exact .none (by rw [okStep, slotOf_eq hproc htab, hat])
    · exact .close hproc htab hi hh hat

/-! ## The invariant along a step -/

theorem ProcOk.mono (h : ProcOk n proc) (hnm : n ≤ m) : ProcOk m proc := by
  obtain ⟨table, htab, hok, hnames⟩ := h
  exact ⟨table, htab, hok, fun hd kobj right hat => (hnames hd kobj right hat).trans_le hnm⟩

theorem Names.mono (h : Names n call) (hnm : n ≤ m) : Names m call := by
  unfold Names at *
  split at h
  · omega
  · omega
  · trivial

theorem mem_setTables (h : proc ∈ (w.setTables p tables).procs) :
    proc ∈ w.procs ∨ proc.tables = tables := by
  obtain ⟨i, hi⟩ := List.mem_iff_getElem?.1 h
  simp only [World.setTables, List.getElem?_modify] at hi
  obtain ⟨q, hq, rfl⟩ := Option.map_eq_some_iff.1 hi
  split
  · exact .inr rfl
  · exact .inl (List.mem_of_getElem? hq)

theorem procSlots_unborn (h : ProcOk n proc) (hk : n ≤ kobj) : procSlots kobj proc = 0 := by
  obtain ⟨table, htab, -, hnames⟩ := h
  have hzero : slots kobj table = 0 := slots_eq_zero fun hd right hat => by
    have := hnames hd kobj right hat
    omega
  simp [procSlots, htab, hzero]

theorem inProgress_unborn (h : Names n call) (hk : n ≤ kobj) : inProgress kobj call = false := by
  unfold inProgress
  split
  · simp only [Names] at h
    simp
    omega
  · rfl

theorem holders_unborn (hw : Shape w) (hk : w.nobj ≤ kobj) : holders w kobj = 0 := by
  have hprocs : (w.procs.map (procSlots kobj)).sum = 0 := by
    apply List.sum_eq_zero_iff_forall_eq_nat.2
    intro n hn
    obtain ⟨proc, hp, rfl⟩ := List.mem_map.1 hn
    exact procSlots_unborn (hw.procs proc hp) hk
  have hcalls : w.calls.countP (inProgress kobj) = 0 := by
    rw [List.countP_eq_zero]
    intro call hc
    simp [inProgress_unborn (hw.calls call hc) hk]
  have hne : kobj ≠ stdioKobj := by have := hw.stdio; omega
  simp [holders, hprocs, hcalls, hne]

theorem afterPut_eq (w : World) (kobj : Nat) :
    (afterPut w kobj).nobj = w.nobj ∧ (afterPut w kobj).procs = w.procs ∧
      (∀ k, k ≠ kobj → (afterPut w kobj).ref k = w.ref k) ∧
      (∀ k, k ≠ kobj → (afterPut w kobj).released k = w.released k) := by
  unfold afterPut
  split
  · exact ⟨rfl, rfl, fun k hk => update_of_ne hk ..,
      fun k hk => update_of_ne hk ..⟩
  · exact ⟨rfl, rfl, fun k hk => update_of_ne hk .., fun k hk => rfl⟩

theorem Effect.unborn (h : Effect w op w') (hk : w'.nobj ≤ k) :
    w.nobj ≤ k ∧ w'.released k = w.released k := by
  cases h with
  | spawn | make => exact ⟨(Nat.le_succ _).trans hk, rfl⟩
  | none | attach | take | untaken | endNull | close => exact ⟨hk, rfl⟩
  | put hcall hkobj href =>
    obtain ⟨hn, -, -, hr⟩ := afterPut_eq w _
    have hk' : w.nobj ≤ k := hn ▸ hk
    exact ⟨hk', hr k (by omega)⟩

theorem unborn_note (hw : Shape w) (h : Effect w op w') (hk : w'.nobj ≤ k) :
    (note w w').released k = 0 ∧ (note w w').dropped k = false := by
  obtain ⟨hk, hr⟩ := h.unborn hk
  constructor
  · exact hr.trans (hw.unborn k hk).1
  · simp [note, (hw.unborn k hk).2, holders_unborn hw hk]

theorem calls_append (hw : Shape w) (hn : w.nobj ≤ n) {calls : List Call}
    (h : ∀ call ∈ calls, Names n call) : ∀ call ∈ w.calls ++ calls, Names n call :=
  List.forall_mem_append.2 ⟨fun call hc => (hw.calls call hc).mono hn, h⟩

theorem calls_eraseIdx (hw : Shape w) (i : Nat) : ∀ call ∈ w.calls.eraseIdx i, Names w.nobj call :=
  fun call hc => hw.calls call (List.mem_of_mem_eraseIdx hc)

theorem table_ok (hw : Shape w) (hproc : w.procs[p]? = some proc) (htab : proc.tables = [table]) :
    TableOk table ∧ ∀ hd kobj right, table.at hd = some (kobj, right) → kobj < w.nobj := by
  obtain ⟨table', htab', hok, hnames⟩ := hw.procs proc (List.mem_of_getElem? hproc)
  rw [htab] at htab'
  cases htab'
  exact ⟨hok, hnames⟩

theorem procs_setTables (hw : Shape w) (p : Nat) (hok : TableOk table)
    (hnames : ∀ hd kobj right, table.at hd = some (kobj, right) → kobj < w.nobj) :
    ∀ proc ∈ (w.setTables p [table]).procs, ProcOk w.nobj proc := by
  intro proc hp
  obtain hp | hp := mem_setTables hp
  · exact hw.procs proc hp
  · exact ⟨table, hp, hok, hnames⟩

theorem afterPut_word (hw : Shape w) (kobj k : Nat) : (afterPut w kobj).ref k < 2147483648 := by
  obtain ⟨-, -, hr, -⟩ := afterPut_eq w kobj
  by_cases hk : k = kobj
  · have := hw.word kobj
    rw [hk]
    unfold afterPut
    split
    · simp
    · simp
      omega
  · rw [hr k hk]
    exact hw.word k

theorem shape_effect (hw : Shape w) (h : Effect w op w') : Shape (note w w') := by
  have hstd := hw.stdio
  have hunborn : ∀ k, w'.nobj ≤ k → _ := fun k hk => unborn_note hw h hk
  cases h with
  | none hok => exact ⟨hstd, hw.procs, hw.calls, hw.word, hunborn⟩
  | spawn roots ops calls hok hspawn hcalls =>
    refine ⟨Nat.lt_succ_of_lt hstd, ?_, ?_, ?_, hunborn⟩
    · intro proc hp
      obtain hp | hp := List.mem_append.1 hp
      · exact (hw.procs proc hp).mono (Nat.le_succ _)
      · rw [List.mem_singleton.1 hp]
        refine ⟨_, rfl, hspawn.ok, fun hd kobj right hat => ?_⟩
        obtain rfl | rfl := hspawn.names hd kobj right hat
        · exact Nat.lt_succ_self _
        · exact Nat.lt_succ_of_lt hstd
    · refine calls_append hw (Nat.le_succ _) fun call hc => ?_
      obtain ⟨p, right, rfl⟩ := hcalls call hc
      exact Nat.lt_succ_self _
    · exact hspawn.word (word_update hw.word _ (i32_lt _))
  | make hok =>
    exact ⟨Nat.lt_succ_of_lt hstd, fun proc hp => (hw.procs proc hp).mono (Nat.le_succ _),
      calls_append hw (Nat.le_succ _) (List.forall_mem_singleton.2 (Nat.lt_succ_self _)),
      word_update hw.word _ (by decide), hunborn⟩
  | attach hcall hproc htab htook href =>
    refine ⟨hstd, procs_setTables hw _ htook.ok fun hd kobj right hat => ?_, calls_eraseIdx hw _,
      word_update hw.word _ (i32_lt _), hunborn⟩
    obtain rfl | hat := htook.names hd kobj right hat
    · exact hw.calls _ (List.mem_of_getElem? hcall)
    · exact (table_ok hw hproc htab).2 hd kobj right hat
  | take hslot href =>
    exact ⟨hstd, hw.procs,
      calls_append hw le_rfl (List.forall_mem_singleton.2 (slotOf_lt hw hslot)),
      word_update hw.word _ (i32_lt _), hunborn⟩
  | @untaken p handle junk hslot =>
    refine ⟨hstd, hw.procs, calls_append hw le_rfl (List.forall_mem_singleton.2 ?_), hw.word,
      hunborn⟩
    cases junk.1 <;> trivial
  | endNull hcall => exact ⟨hstd, hw.procs, calls_eraseIdx hw _, hw.word, hunborn⟩
  | @put i kobj sent right taken hcall hkobj href =>
    obtain ⟨hn, hp, -, -⟩ := afterPut_eq w kobj
    exact ⟨hn ▸ hstd, fun proc hproc => hn ▸ hw.procs proc (hp ▸ hproc),
      fun call hc => hn ▸ calls_eraseIdx hw i call hc, afterPut_word hw kobj, hunborn⟩
  | @close p i kobj handle right proc table hproc htab hi hhandle hat =>
    obtain ⟨hok, hnames⟩ := table_ok hw hproc htab
    refine ⟨hstd, procs_setTables hw p (hok.drop hi hat) fun hd kobj right hat' => ?_, hw.calls,
      hw.word, hunborn⟩
    rw [at_write hi] at hat'
    split at hat'
    · cases hat'
    · exact hnames hd kobj right hat'

/-! ## The counts along a step -/

theorem count_note (w w' : World) (kobj : Nat) : count (note w w') kobj =
    (⟨w'.ref kobj, holders w kobj, w'.released kobj, w.dropped kobj⟩ : Count).hold
      (holders w' kobj) := rfl

theorem count_note_same (href : w'.ref kobj = w.ref kobj)
    (hrel : w'.released kobj = w.released kobj) (hold : holders w' kobj = holders w kobj) :
    count (note w w') kobj = count w kobj := by
  rw [count_note, href, hrel, hold]
  exact Count.hold_self (count w kobj)

theorem counted_iff_of_one (hc : Counted w) (hn : w'.nobj = w.nobj) (hk : kobj < w.nobj)
    (hrest : ∀ k, k ≠ kobj → count (note w w') k = count w k) :
    Counted (note w w') ↔ Exact (count (note w w') kobj) := by
  constructor
  · intro h
    exact h kobj (hn ▸ hk)
  · intro h k hlt
    by_cases heq : k = kobj
    · exact heq ▸ h
    · rw [hrest k heq]
      exact hc k (hn ▸ hlt)

theorem counted_of_same (hc : Counted w) (hn : w'.nobj = w.nobj)
    (h : ∀ k, count (note w w') k = count w k) : Counted (note w w') := by
  intro k hk
  rw [h k]
  exact hc k (hn ▸ hk)

theorem procSlots_single (htab : proc.tables = [table]) (k : Nat) :
    procSlots k proc = slots k table := by
  simp [procSlots, htab]

theorem holders_setTables (hproc : w.procs[p]? = some proc) (htab : proc.tables = [table])
    (table' : HandleTable) (k : Nat) :
    holders (w.setTables p [table']) k + slots k table =
      holders w k + slots k table' := by
  have h := sum_map_modify hproc (fun proc => { proc with tables := [table'] }) (procSlots k)
  rw [procSlots_single htab k, procSlots_single rfl k] at h
  simp only [holders, World.setTables]
  omega

theorem holders_eraseIdx {i : Nat} (hcall : w.calls[i]? = some call) (k : Nat) :
    holders { w with calls := w.calls.eraseIdx i } k +
      (if inProgress k call then 1 else 0) = holders w k := by
  have h := countP_eraseIdx hcall (inProgress k)
  simp only [holders]
  omega

theorem counted_acquire_iff (hc : Counted w) (hk : kobj < w.nobj) (href : 0 ≤ w.ref kobj)
    (hn : w'.nobj = w.nobj) (hr : w'.ref = update w.ref kobj (i32 (1 + w.ref kobj)))
    (hrel : w'.released = w.released)
    (hold : ∀ k, holders w' k = holders w k + if k = kobj then 1 else 0) :
    Counted (note w w') ↔ w.ref kobj + 1 < 2147483648 := by
  have hone : count (note w w') kobj = (count w kobj).acquire := by
    rw [count_note, hold, if_pos rfl, hr, hrel, update_self]
    rfl
  have hrest : ∀ k, k ≠ kobj → count (note w w') k = count w k := fun k hne =>
    count_note_same (by rw [hr, update_of_ne hne]) (by rw [hrel])
      (by rw [hold, if_neg hne, Nat.add_zero])
  rw [counted_iff_of_one hc hn hk hrest, hone]
  exact acquire_exact_iff (hc kobj hk) href

theorem count_afterPut :
    (afterPut w kobj).ref kobj = (count w kobj).put.ref ∧
    (afterPut w kobj).released kobj = (count w kobj).put.released := by
  unfold afterPut Count.put count
  simp only
  split
  · simp
  · simp

theorem counted_put_iff (hc : Counted w) (hk : kobj < w.nobj) (href : 0 < w.ref kobj) (taken : Bool)
    (hn : w'.nobj = w.nobj) (hr : w'.ref = (afterPut w kobj).ref)
    (hrel : w'.released = (afterPut w kobj).released)
    (hold : ∀ k, holders w k = holders w' k + if k = kobj ∧ taken then 1 else 0) :
    Counted (note w w') ↔ taken = true := by
  obtain ⟨-, -, href', hrel'⟩ := afterPut_eq w kobj
  have hrest : ∀ k, k ≠ kobj → count (note w w') k = count w k := fun k hne =>
    count_note_same (by rw [hr, href' k hne]) (by rw [hrel, hrel' k hne]) (by simp [hold k, hne])
  have hput : (⟨w'.ref kobj, holders w kobj, w'.released kobj, w.dropped kobj⟩ : Count) =
      (count w kobj).put := by
    rw [hr, hrel, count_afterPut.1, count_afterPut.2]
    unfold Count.put
    split <;> rfl
  have hholders : (count w kobj).put.holders = holders w kobj := by
    unfold Count.put
    split <;> rfl
  have h0 := hold kobj
  rw [counted_iff_of_one hc hn hk hrest, count_note, hput]
  cases taken with
  | true =>
    simp only [and_self, if_true] at h0
    have hpred : holders w' kobj = holders w kobj - 1 := by omega
    rw [hpred]
    exact iff_of_true (release_exact (hc kobj hk) href) rfl
  | false =>
    simp only [Bool.false_eq_true, and_false, if_false, Nat.add_zero] at h0
    rw [← h0, ← hholders, Count.hold_self]
    simpa using put_not_exact (hc kobj hk) href

theorem not_counted_forget (hc : Counted w) (hk : kobj < w.nobj) (hn : w'.nobj = w.nobj)
    (hr : w'.ref = w.ref) (hrel : w'.released = w.released)
    (hold : holders w kobj = holders w' kobj + 1) : ¬ Counted (note w w') := by
  intro h
  apply forget_not_exact (hc kobj hk) (show 0 < holders w kobj by omega)
  have := h kobj (hn ▸ hk)
  rw [count_note, hr, hrel, show holders w' kobj = holders w kobj - 1 by omega] at this
  exact this

theorem counted_spawn_iff (hw : Shape w) (hc : Counted w) {mem : ProcMem}
    (hspawn : Spawned (update w.ref w.nobj (i32 mem.ref)) w.nobj table ref)
    (hn : w'.nobj = w.nobj + 1) (hr : w'.ref = ref) (hrel : w'.released = w.released)
    (hold : ∀ k, holders w' k = holders w k + slots k table) :
    Counted (note w w') ↔ spawnOk w mem := by
  have hne : stdioKobj ≠ w.nobj := hw.stdio.ne
  have hnew : count (note w w') w.nobj = (Count.made (i32 mem.ref)).acquire := by
    rw [count_note, hr, hrel, hold, hspawn.own_ref, hspawn.slots, holders_unborn hw le_rfl,
      (hw.unborn _ le_rfl).1, (hw.unborn _ le_rfl).2]
    simp [hne.symm, Count.made, Count.acquire]
  have hstdio : count (note w w') stdioKobj = (count w stdioKobj).acquire.acquire.acquire := by
    rw [count_note, hr, hrel, hold, hspawn.stdio_ref, hspawn.slots, update_of_ne hne]
    simp [hne, Count.acquire, Count.hold, count]
  have hrest : ∀ k, k ≠ w.nobj → k ≠ stdioKobj → count (note w w') k = count w k := by
    intro k hk hk0
    apply count_note_same
    · rw [hr, hspawn.rest k hk hk0, update_of_ne hk]
    · rw [hrel]
    · rw [hold, hspawn.slots]
      simp [hk, hk0]
  obtain ⟨h0, h1, h2⟩ := hspawn.stdio_nonneg
  have hown := hspawn.own_nonneg
  rw [update_self] at hown
  rw [update_of_ne hne] at h0 h1 h2
  have hnew_iff := made_acquire_exact_iff hown (i32_lt _)
  have hstdio_iff := acquire_thrice_exact_iff (hc _ hw.stdio) h0 (hw.word _) h1 h2
  constructor
  · intro h
    constructor
    · exact hnew_iff.1 (hnew ▸ h w.nobj (hn ▸ Nat.lt_succ_self _))
    · exact hstdio_iff.1 (hstdio ▸ h stdioKobj (hn ▸ Nat.lt_succ_of_lt hw.stdio))
  · rintro ⟨hmem, hword⟩ k hk
    by_cases hk1 : k = w.nobj
    · rw [hk1, hnew]
      exact hnew_iff.2 hmem
    by_cases hk0 : k = stdioKobj
    · rw [hk0, hstdio]
      exact hstdio_iff.2 hword
    · rw [hrest k hk1 hk0]
      have : k < w.nobj + 1 := hn ▸ hk
      exact hc k (by omega)

theorem counted_make (hw : Shape w) (hc : Counted w) (hn : w'.nobj = w.nobj + 1)
    (hr : w'.ref = update w.ref w.nobj 0) (hrel : w'.released = w.released)
    (hold : ∀ k, holders w' k = holders w k) : Counted (note w w') := by
  intro k hk
  by_cases hnew : k = w.nobj
  · rw [hnew, count_note, hr, hrel, hold, holders_unborn hw le_rfl, (hw.unborn _ le_rfl).1,
      (hw.unborn _ le_rfl).2, update_self]
    exact .inl ⟨rfl, rfl, rfl⟩
  · have hlt : k < w.nobj + 1 := hn ▸ hk
    rw [count_note_same (by rw [hr, update_of_ne hnew]) (by rw [hrel]) (hold k)]
    exact hc k (by omega)

/-! ## Exactness of one step -/

section
variable {w : World} {i p kobj : Nat} {right : UInt32}

theorem okStep_createEnd_iff (hcall : w.calls[i]? = some (.create p kobj right)) :
    okStep w (.createEnd i) ↔ w.ref kobj + 1 < 2147483648 := by
  constructor
  · intro hok
    exact hok p kobj right hcall
  · intro hlt p' kobj' right' hcall'
    rw [hcall] at hcall'
    cases hcall'
    exact hlt

theorem okStep_sendBegin_iff {handle : Int} (junk : Option Nat × UInt32)
    (hslot : slotOf w p (i16 handle) = some (kobj, right)) :
    okStep w (.sendBegin p handle junk) ↔ w.ref kobj + 1 < 2147483648 := by
  constructor
  · intro hok
    exact hok kobj right hslot
  · intro hlt kobj' right' hslot'
    rw [hslot] at hslot'
    cases hslot'
    exact hlt

/-- A send that has not taken its kobject must not put it. -/
theorem okStep_sendEnd_iff {sent : Option Nat} {taken : Bool} (ret : Int)
    (hcall : w.calls[i]? = some (.send sent right taken)) :
    okStep w (.sendEnd i ret) ↔ sent = none ∨ taken = true := by
  constructor
  · intro hok
    cases sent with
    | none => exact .inl rfl
    | some kobj =>
      cases taken with
      | true => exact .inr rfl
      | false => exact absurd hcall (hok kobj right)
  · rintro (rfl | rfl) kobj' right' hcall'
    · rw [hcall] at hcall'
      cases hcall'
    · rw [hcall] at hcall'
      cases hcall'

end

theorem inProgress_send_iff {kobj : Nat} {right : UInt32} {taken : Bool} :
    inProgress k (.send (some kobj) right taken) = true ↔ k = kobj ∧ taken = true := by
  cases taken with
  | true => exact beq_iff_eq.trans (by simp [eq_comm])
  | false => simp [inProgress]

theorem countP_creates {calls : List Call} {obj : Nat}
    (h : ∀ call ∈ calls, ∃ p right, call = .create p obj right) (k : Nat) :
    calls.countP (inProgress k) = 0 := by
  rw [List.countP_eq_zero]
  intro call hmem
  obtain ⟨p, right, rfl⟩ := h call hmem
  simp [inProgress]

/-- The critical sections after which every count is still exact. -/
theorem counted_effect_iff {w : World} (hw : Shape w) (hc : Counted w) (h : Effect w op w') :
    Counted (note w w') ↔ okStep w op := by
  cases h with
  | none hok =>
    refine iff_of_true (counted_of_same hc rfl fun k => ?_) hok
    exact count_note_same rfl rfl rfl
  | @spawn op mem table ref roots ops calls hok hspawn hcalls =>
    rw [hok]
    refine counted_spawn_iff hw hc hspawn rfl rfl rfl fun k => ?_
    have hzero := countP_creates hcalls k
    simp only [holders, List.map_append, List.sum_append, List.countP_append, hzero, List.map_cons,
      List.map_nil, List.sum_singleton, procSlots]
    omega
  | @make op p right ops hok =>
    refine iff_of_true (counted_make hw hc rfl rfl rfl fun k => ?_) hok
    simp [holders, List.countP_append, inProgress]
  | @attach i p kobj right proc table table' hcall hproc htab htook href =>
    have hk : kobj < w.nobj := hw.calls _ (List.mem_of_getElem? hcall)
    rw [okStep_createEnd_iff hcall]
    refine counted_acquire_iff hc hk href rfl rfl rfl fun k => ?_
    have h1 := holders_setTables hproc htab table' k
    have h2 := htook.slots k
    have h3 := holders_eraseIdx hcall k
    simp only [inProgress, Bool.false_eq_true, if_false] at h3
    simp only [holders, World.setTables] at h1 h3 ⊢
    omega
  | @take p kobj handle right junk hslot href =>
    have hk : kobj < w.nobj := slotOf_lt hw hslot
    rw [okStep_sendBegin_iff junk hslot]
    refine counted_acquire_iff hc hk href rfl rfl rfl fun k => ?_
    simp only [holders, List.countP_append, List.countP_singleton, inProgress, beq_iff_eq,
      eq_comm (a := kobj)]
    omega
  | @untaken p handle junk hslot =>
    refine iff_of_true (counted_of_same hc rfl fun k => count_note_same rfl rfl ?_) ?_
    · simp [holders, List.countP_append, inProgress]
    · intro kobj right hslot'
      rw [hslot] at hslot'
      cases hslot'
  | @endNull i sent right taken hcall =>
    have hok := (okStep_sendEnd_iff sent hcall).2 (.inl rfl)
    refine iff_of_true (counted_of_same hc rfl fun k => count_note_same rfl rfl ?_) hok
    exact holders_eraseIdx hcall k
  | @put i kobj sent right taken hcall hkobj href =>
    obtain ⟨hn, hp, -, -⟩ := afterPut_eq w kobj
    have hok : okStep w (.sendEnd i sent) ↔ taken = true := by
      rw [okStep_sendEnd_iff sent hcall]
      exact or_iff_right (Option.some_ne_none kobj)
    rw [hok]
    refine counted_put_iff hc hkobj href taken hn rfl rfl fun k => ?_
    have h3 := holders_eraseIdx hcall k
    simp only [inProgress_send_iff] at h3
    simp only [holders, hp] at h3 ⊢
    omega
  | @close p i kobj handle right proc table hproc htab hi hhandle hat =>
    refine iff_of_false ?_ ?_
    · have hk : kobj < w.nobj := by
        apply slotOf_lt hw
        rw [slotOf_eq hproc htab, hat]
      refine not_counted_forget hc hk rfl rfl rfl ?_
      have h1 := holders_setTables hproc htab
        (table.write i ⟨none, kobjRightNone⟩ (table.free + 1)) kobj
      have h2 := slots_clear hi hat (table.free + 1) kobj
      rw [if_pos rfl] at h2
      omega
    · intro hok
      rw [okStep, slotOf_eq hproc htab, hhandle, hat] at hok
      cases hok

/-! ## Runs -/

theorem step_effect {w : World} (hw : Shape w) (h : step w op = some w') :
    ∃ w1, Effect w op w1 ∧ w' = note w w1 := by
  obtain ⟨w1, h1, rfl⟩ := Option.map_eq_some_iff.1 h
  exact ⟨w1, advance_effect hw h1, rfl⟩

theorem shape_step {w : World} (hw : Shape w) (h : step w op = some w') : Shape w' := by
  obtain ⟨w1, heff, rfl⟩ := step_effect hw h
  exact shape_effect hw heff

theorem counted_step_iff {w : World} (hw : Shape w) (hc : Counted w) (h : step w op = some w') :
    Counted w' ↔ okStep w op := by
  obtain ⟨w1, heff, rfl⟩ := step_effect hw h
  exact counted_effect_iff hw hc heff

theorem start_shape : Shape start := by
  constructor
  · decide
  · intro proc hp
    cases hp
  · intro call hc
    cases hc
  · exact word_update (fun _ => by decide) _ (by decide)
  · intro k _
    exact ⟨rfl, rfl⟩

theorem start_counted : Counted start := by
  intro k hk
  have hk0 : k = stdioKobj := Nat.lt_one_iff.1 hk
  rw [hk0]
  left
  decide

/-- **Reference counts.** In every run whose critical sections all meet `okStep`
every kobject's count is exact in every state, and a further critical section keeps
it so exactly when it meets `okStep` too. -/
theorem kobject_refs_exact {w : World} (h : Steps step okStep start w) :
    Counted w ∧ ∀ op w', step w op = some w' → (Counted w' ↔ okStep w op) := by
  have hinv : Shape w ∧ Counted w := by
    apply h.invariant
    · exact ⟨start_shape, start_counted⟩
    · intro t a u hi hok hst
      exact ⟨shape_step hi.1 hst, (counted_step_iff hi.1 hi.2 hst).2 hok⟩
  exact ⟨hinv.2, fun op w' hst => counted_step_iff hinv.1 hinv.2 hst⟩

/-- The root service makes a pma of one page: both parts of the call. -/
theorem kobject_refs_exact_pma :
    ∃ w, Steps step okStep start w ∧ count w stdioKobj = ⟨4, 4, 0, false⟩ ∧
      count w 2 = ⟨1, 1, 0, false⟩ ∧ Counted w := by
  let create : Op := .createBegin 0 kobjTypePma ⟨⟨0, 4096⟩, true, true, none⟩
  have hval : ((step start (.boot ⟨0, false⟩)).bind fun w₁ => (step w₁ create).bind fun w₂ =>
      (step w₂ (.createEnd 0)).map fun w => (w₂.calls, w₂.ref 2, count w stdioKobj, count w 2)) =
        some ([.create 0 2 pmaRight], 0, ⟨4, 4, 0, false⟩, ⟨1, 1, 0, false⟩) := by
    decide +kernel
  obtain ⟨w₁, hw₁, hval⟩ := Option.bind_eq_some_iff.1 hval
  obtain ⟨w₂, hw₂, hval⟩ := Option.bind_eq_some_iff.1 hval
  obtain ⟨w, hw, hval⟩ := Option.map_eq_some_iff.1 hval
  simp only [Prod.mk.injEq] at hval
  obtain ⟨hcalls, href, hstdio, hpma⟩ := hval
  have hboot : okStep start (.boot ⟨0, false⟩) := ⟨by decide, by decide⟩
  have hbegin : okStep w₁ create := fun _ _ _ _ htype => absurd htype (by decide)
  have hend : okStep w₂ (.createEnd 0) := by
    intro p kobj right hcall
    rw [hcalls] at hcall
    cases hcall
    rw [href]
    decide
  have hrun : Steps step okStep start w :=
    ((Steps.refl.tail _ hboot hw₁).tail _ hbegin hw₂).tail _ hend hw
  exact ⟨w, hrun, hstdio, hpma, (kobject_refs_exact hrun).1⟩

/-- The root service makes a pma of one page and closes its handle. -/
def leakOps : List Op :=
  [.boot ⟨0, false⟩, .createBegin 0 kobjTypePma ⟨⟨0, 4096⟩, true, true, none⟩, .createEnd 0,
    .close 0 4]

/-- Nobody holds the closed object, its count is still 1, and it is never released. -/
theorem kobject_close_leaks :
    ∃ w, Steps step (fun _ _ => True) start w ∧ count w 2 = ⟨1, 0, 0, true⟩ ∧ ¬ Counted w := by
  have hval : (run step start leakOps).map (fun w => (w.nobj, count w 2)) =
      some (3, ⟨1, 0, 0, true⟩) := by decide +kernel
  obtain ⟨w, hw, hv⟩ := Option.map_eq_some_iff.1 hval
  obtain ⟨hn, hcount⟩ := Prod.mk.injEq .. ▸ hv
  refine ⟨w, Steps.refl.run (fun _ _ => trivial) hw, hcount, fun hc => ?_⟩
  have := hc 2 (by omega)
  rw [hcount] at this
  simp [Exact] at this

end SpringOs.KobjectRuns
