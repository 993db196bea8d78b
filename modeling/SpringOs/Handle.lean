import Mathlib.Logic.Function.Basic
import SpringOs.Kernel
import SpringOs.Lib.Machine

/-!
The handle tables of `uspace/handle.c`, and what a handle resolves to.

A process owns a chain of table pages of 255 descriptors. Kobjects are numbered;
their reference words are a function `ref`. `get_kobject` writes its results
through two pointers, modelled as an optional pair: `none` is "not written".

* `handleSlot_single`: an allocation on one page stops only on a full table;
* `handleAlloc_ok`, `handleFree_ok`: what a completed allocation or free did;
* `get_kobject_iff`: the handles for which `get_kobject` answers rightly, in every
  state that allocations and frees reach;
* `get_kobject_empty_slot`: on a handle never allocated it reports success.
-/

namespace SpringOs.Handle
open Kernel Lib.Word Lib.Machine
open Function (update update_apply)

variable {i : Nat} {h : Int}

/-! ## Reference words (`atomic.h`, `kobject.c`) -/

/-- `atomic_inc_if_postive`: the word afterwards, and the word read. -/
def atomicIncIfPostive (t : Int) : Int × Int :=
  if t < 0 then (t, t) else (i32 (1 + t), t)

/-- `atomic_dec_set_negtive_if_zero`: the word afterwards, and the word read. -/
def atomicDecSetNegtiveIfZero (t : Int) : Int × Int :=
  if t ≤ 0 then (t, t) else if t - 1 = 0 then (-1, t) else (t - 1, t)

def kobjectGet (ref : Nat → Int) : Option Nat → Except Fault (Int × (Nat → Int))
  | none => .ok (0, ref)
  | some kobj =>
    let (value, old) := atomicIncIfPostive (ref kobj)
    if 0 ≤ old then .ok (1, update ref kobj value)
    else .error (.assertion .kobjectGet)

theorem kobjectGet_some (ref : Nat → Int) (k : Nat) :
    kobjectGet ref (some k) = if 0 ≤ ref k then .ok (1, update ref k (i32 (1 + ref k)))
      else .error (.assertion .kobjectGet) := by
  unfold kobjectGet atomicIncIfPostive
  by_cases h : ref k < 0
  · simp [h, Int.not_le.2 h]
  · simp [h, Int.not_lt.1 h]

/-! ## Handle tables -/

def kobjRightNone : UInt32 := 0
def kobjRightRead : UInt32 := 1
def kobjRightWrite : UInt32 := 2
def kobjRightCtl : UInt32 := 0x10

def handleNull : Int := -1

/-- `NR_DESC_PER_PAGE`: a page of 16-byte descriptors, less the table's own. -/
def nrDescPerPage : Nat := 255

/-- `PROC_MAX_HANDLE`. -/
def procMaxHandle : Nat := nrDescPerPage * 128

/-- `struct handle_desc`. -/
structure HandleDesc where
  kobj : Option Nat
  right : UInt32
  deriving DecidableEq

/-- One table page, `struct handle_table_desc` included; `next` is the rest of the
chain. -/
structure HandleTable where
  descs : Vector HandleDesc 255
  index : Int
  free : Int

/-- `new_handle_table`, when the page was allocated. -/
def newHandleTable (index : Int) : HandleTable :=
  { descs := .replicate 255 ⟨none, kobjRightNone⟩, index := index, free := nrDescPerPage }

/-- `invalid_handle`: the second comparison is one of `unsigned long`. -/
def invalidHandle (handle : Int) : Bool :=
  handle == handleNull || procMaxHandle ≤ u64 handle

/-- `lookup_handle_desc`: the table's place in the chain and the slot in it. The
loop follows `next` without a test, so its result may lie one past the chain. -/
def lookupHandleDesc : List HandleTable → Int → Except Fault (Nat × Nat)
  | [], handle => if nrDescPerPage ≤ u64 handle then .error .nullTable else .ok (0, u64 handle)
  | _ :: next, handle =>
    if nrDescPerPage ≤ u64 handle then
      (lookupHandleDesc next (i16 (handle - nrDescPerPage))).map fun pos => (pos.1 + 1, pos.2)
    else .ok (0, u64 handle)

/-- The load of `*hd`. -/
def readDesc (tables : List HandleTable) (pos : Nat × Nat) : Except Fault HandleDesc :=
  match tables[pos.1]? with
  | none => .error .nullTable
  | some table =>
    match table.descs[pos.2]? with
    | none => .error .outOfBounds
    | some hd => .ok hd

/-- What `get_kobject` returns, what it wrote through its pointers, and the
reference words afterwards. -/
structure Got where
  ret : Int
  out : Option (Nat × UInt32)
  ref : Nat → Int

/-- `get_kobject`, for the tables of the current process. -/
def getKobject (tables : List HandleTable) (ref : Nat → Int) (handle : Int) : Except Fault Got :=
  if invalidHandle handle then .ok ⟨-enoent, none, ref⟩
  else do
    let pos ← lookupHandleDesc tables handle
    let hd ← readDesc tables pos
    match hd.kobj with
    | none => .ok ⟨0, none, ref⟩
    | some tmp => do
      let (got, ref) ← kobjectGet ref (some tmp)
      .ok ⟨0, if got ≠ 0 then some (tmp, hd.right) else none, ref⟩

/-- The `for` loop of `__handle_alloc`. -/
def firstNull (table : HandleTable) : Option Nat :=
  table.descs.toList.findIdx? fun hd => hd.kobj.isNone

def HandleTable.write (table : HandleTable) (i : Nat) (hd : HandleDesc) (free : Int) :
    HandleTable :=
  { table with descs := table.descs.setIfInBounds i hd, free := free }

/-- `__handle_alloc` up to its `kobject_get`: the handle and the chain afterwards.
A table that counts a free slot it does not have is scanned for ever. -/
def handleSlot (kobj : Nat) (right : UInt32) :
    List HandleTable → Except Fault (Int × List HandleTable)
  | [] => .error (.todo .handleAlloc)
  | table :: next =>
    if table.free = 0 then
      (handleSlot kobj right next).map fun res => (res.1, table :: res.2)
    else
      match firstNull table with
      | none => .error .hang
      | some i =>
        let handle := i16 (i + table.index)
        if handle = handleNull then .error .hang
        else .ok (handle, table.write i ⟨some kobj, right⟩ (table.free - 1) :: next)

/-- `__handle_alloc`. -/
def handleAlloc (tables : List HandleTable) (ref : Nat → Int) (kobj : Nat) (right : UInt32) :
    Except Fault (Int × List HandleTable × (Nat → Int)) := do
  let (handle, tables) ← handleSlot kobj right tables
  let (_, ref) ← kobjectGet ref (some kobj)
  return (handle, tables, ref)

/-- `__handle_free`: what it returns, what it wrote through its pointers, and the
chain afterwards. -/
def handleFree (tables : List HandleTable) (handle : Int) :
    Except Fault (Int × Option (Nat × UInt32) × List HandleTable) :=
  if invalidHandle handle then .ok (-enoent, none, tables)
  else do
    let pos ← lookupHandleDesc tables handle
    let hd ← readDesc tables pos
    match hd.kobj with
    | none => .ok (-eperm, none, tables)
    | some kobj =>
      .ok (0, some (kobj, hd.right), tables.modify pos.1 fun table =>
        table.write pos.2 ⟨none, kobjRightNone⟩ (table.free + 1))

/-- One of the four allocations of `init_proc_handles`, with its assertion. -/
def allocExpect (kobj : Nat) (right : UInt32) (expected : Int)
    (s : List HandleTable × (Nat → Int)) : Except Fault (List HandleTable × (Nat → Int)) := do
  let (handle, tables, ref) ← handleAlloc s.1 s.2 kobj right
  if handle = expected then .ok (tables, ref) else .error (.assertion .initProcHandles)

/-- `init_proc_handles`: the process's own kobject, then `stdio_kobj` three times. -/
def initProcHandles (ref : Nat → Int) (self stdio : Nat) :
    Except Fault (List HandleTable × (Nat → Int)) := do
  let s ← allocExpect self (kobjRightWrite ||| kobjRightCtl) 0 ([newHandleTable 0], ref)
  let s ← allocExpect stdio kobjRightRead 1 s
  let s ← allocExpect stdio kobjRightWrite 2 s
  allocExpect stdio kobjRightWrite 3 s

/-! ## What a table page holds -/

/-- The kobject and rights behind a handle, in a chain of one page. -/
def HandleTable.at (table : HandleTable) (handle : Int) : Option (Nat × UInt32) :=
  if 0 ≤ handle then
    (table.descs[handle.toNat]?).bind fun hd => hd.kobj.map fun kobj => (kobj, hd.right)
  else none

/-- The first page of every process: it counts its empty slots right. -/
structure TableOk (table : HandleTable) : Prop where
  index : table.index = 0
  free : table.free = (table.descs.countP fun hd => hd.kobj.isNone : Nat)

theorem newHandleTable_ok : TableOk (newHandleTable 0) := by
  constructor
  · rfl
  · simp [newHandleTable, nrDescPerPage, Vector.countP_replicate]

theorem at_newHandleTable (h : Int) : (newHandleTable 0).at h = none := by
  unfold HandleTable.at newHandleTable
  split
  · rw [Vector.getElem?_replicate]
    split <;> rfl
  · rfl

variable {table : HandleTable}

theorem at_of_lt (hi : i < 255) :
    table.at i = table.descs[i].kobj.map fun kobj => (kobj, table.descs[i].right) := by
  unfold HandleTable.at
  rw [if_pos (by omega), Int.toNat_natCast, Vector.getElem?_eq_getElem hi, Option.bind_some]

theorem at_eq_none_of_le (hh : h < 0 ∨ 255 ≤ h) : table.at h = none := by
  unfold HandleTable.at
  split
  · rw [Vector.getElem?_eq_none (by omega)]
    rfl
  · rfl

variable {kr : Nat × UInt32} {handle : Int} {tables : List HandleTable}

theorem lt_of_at (hkr : table.at h = some kr) : 0 ≤ h ∧ h < 255 := by
  by_contra hn
  rw [at_eq_none_of_le (by omega)] at hkr
  cases hkr

theorem at_write (hi : i < 255) (hd : HandleDesc) (free h : Int) :
    (table.write i hd free).at h =
      if h = i then hd.kobj.map fun kobj => (kobj, hd.right) else table.at h := by
  unfold HandleTable.at HandleTable.write
  by_cases h0 : 0 ≤ h
  · obtain ⟨j, rfl⟩ := Int.eq_ofNat_of_zero_le h0
    rw [if_pos h0, if_pos h0, Int.toNat_natCast, Vector.getElem?_setIfInBounds]
    by_cases hj : j = i
    · subst hj
      simp [hi]
    · rw [if_neg (Ne.symm hj), if_neg (by omega)]
  · rw [if_neg h0, if_neg h0, if_neg (by omega)]

theorem descs_write (hi : i < 255) (hd : HandleDesc) (free : Int) :
    (table.write i hd free).descs = table.descs.set i hd hi := by
  ext j hj
  simp [HandleTable.write, Vector.getElem_setIfInBounds, Vector.getElem_set]

/-! ## The handle operations on one page -/

theorem invalidHandle_iff (hlo : -32768 ≤ h) (hhi : h < 32768) :
    invalidHandle h = true ↔ h < 0 ∨ 32640 ≤ h := by
  have hmax : procMaxHandle = 32640 := rfl
  unfold invalidHandle handleNull u64
  rw [hmax, Bool.or_eq_true, beq_iff_eq, decide_eq_true_iff]
  omega

theorem lookup_of_lt (table : HandleTable) (hi : i < 255) :
    lookupHandleDesc [table] i = .ok (0, i) := by
  have hu : u64 i = i := by unfold u64; omega
  simp [lookupHandleDesc, hu, nrDescPerPage, hi]

/-- Past the page the loop follows the null `next`, and either reads through it
again or hands it to the caller. -/
theorem lookup_of_ge (table : HandleTable) (hge : 255 ≤ h) (hmax : h < 32640) :
    lookupHandleDesc [table] h = .error .nullTable ∨
      ∃ i, lookupHandleDesc [table] h = .ok (1, i) := by
  have hcond : nrDescPerPage ≤ u64 h := by unfold nrDescPerPage u64; omega
  simp only [lookupHandleDesc, hcond, if_true]
  split
  · exact .inl rfl
  · exact .inr ⟨_, rfl⟩

theorem readDesc_of_lt (table : HandleTable) (hi : i < 255) :
    readDesc [table] (0, i) = .ok table.descs[i] := by
  simp [readDesc, hi]

theorem getKobject_single (table : HandleTable) (ref : Nat → Int) (hlo : -32768 ≤ h)
    (hhi : h < 32768) :
    getKobject [table] ref h =
      if h < 0 ∨ 32640 ≤ h then .ok ⟨-enoent, none, ref⟩
      else if 255 ≤ h then .error .nullTable
      else match table.at h with
        | none => .ok ⟨0, none, ref⟩
        | some (k, r) =>
          if 0 ≤ ref k then .ok ⟨0, some (k, r), update ref k (i32 (1 + ref k))⟩
          else .error (.assertion .kobjectGet) := by
  unfold getKobject
  by_cases hinv : h < 0 ∨ 32640 ≤ h
  · rw [if_pos hinv, if_pos ((invalidHandle_iff hlo hhi).2 hinv)]
  rw [if_neg hinv, if_neg (mt (invalidHandle_iff hlo hhi).1 hinv)]
  by_cases hge : 255 ≤ h
  · rw [if_pos hge]
    obtain hl | ⟨i, hl⟩ := lookup_of_ge table hge (by omega) <;> rw [hl] <;> rfl
  · obtain ⟨i, rfl⟩ := Int.eq_ofNat_of_zero_le (show 0 ≤ h by omega)
    have hi : i < 255 := by omega
    rw [if_neg hge, at_of_lt hi, lookup_of_lt table hi]
    simp only [bind, Except.bind, readDesc_of_lt table hi]
    cases table.descs[i].kobj with
    | none => rfl
    | some tmp =>
      simp only [kobjectGet_some, Option.map_some]
      by_cases hr : 0 ≤ ref tmp
      · simp [hr]
      · simp [hr]

theorem handleFree_single (table : HandleTable) (hlo : -32768 ≤ h) (hhi : h < 32768) :
    handleFree [table] h =
      if h < 0 ∨ 32640 ≤ h then .ok (-enoent, none, [table])
      else if 255 ≤ h then .error .nullTable
      else match table.at h with
        | none => .ok (-eperm, none, [table])
        | some kr =>
          .ok (0, some kr, [table.write h.toNat ⟨none, kobjRightNone⟩ (table.free + 1)]) := by
  unfold handleFree
  by_cases hinv : h < 0 ∨ 32640 ≤ h
  · rw [if_pos hinv, if_pos ((invalidHandle_iff hlo hhi).2 hinv)]
  rw [if_neg hinv, if_neg (mt (invalidHandle_iff hlo hhi).1 hinv)]
  by_cases hge : 255 ≤ h
  · rw [if_pos hge]
    obtain hl | ⟨i, hl⟩ := lookup_of_ge table hge (by omega) <;> rw [hl] <;> rfl
  · obtain ⟨i, rfl⟩ := Int.eq_ofNat_of_zero_le (show 0 ≤ h by omega)
    have hi : i < 255 := by omega
    rw [if_neg hge, at_of_lt hi, lookup_of_lt table hi]
    simp only [bind, Except.bind, readDesc_of_lt table hi]
    cases table.descs[i].kobj with
    | none => rfl
    | some tmp => rfl

theorem firstNull_eq_some (h : firstNull table = some i) : i < 255 ∧ table.at i = none := by
  obtain ⟨hlen, hnull, -⟩ := List.findIdx?_eq_some_iff_getElem.1 h
  have hi : i < 255 := by simpa using hlen
  constructor
  · exact hi
  · rw [at_of_lt hi]
    simpa using hnull

theorem firstNull_least (h : firstNull table = some i) {j : Nat} (hj : j < i) :
    table.at j ≠ none := by
  obtain ⟨hlen, -, hmin⟩ := List.findIdx?_eq_some_iff_getElem.1 h
  have hi : i < 255 := by simpa using hlen
  have hlt : j < 255 := by omega
  have hsome := hmin j hj
  rw [at_of_lt hlt]
  intro hnone
  rw [Option.map_eq_none_iff] at hnone
  simp [hnone] at hsome

/-- A table that counts its empty slots right is never scanned in vain. -/
theorem firstNull_ne_none (ht : TableOk table) (hfree : table.free ≠ 0) :
    firstNull table ≠ none := by
  intro hnone
  apply hfree
  rw [ht.free, Vector.countP_eq_zero.2]
  · rfl
  · intro hd hmem
    have := List.findIdx?_eq_none_iff.1 hnone hd (by simpa using hmem)
    simp [this]

/-- An allocation on one page stops at the `TODO()` of a full table, or takes the
first empty slot. -/
theorem handleSlot_single (ht : TableOk table) (kobj : Nat) (right : UInt32) :
    (table.free = 0 ∧ handleSlot kobj right [table] = .error (.todo .handleAlloc)) ∨
      ∃ i : Nat, i < 255 ∧ table.at i = none ∧ handleSlot kobj right [table] =
          .ok ((i : Int), [table.write i ⟨some kobj, right⟩ (table.free - 1)]) ∧
        ∀ j : Nat, j < i → table.at j ≠ none := by
  by_cases hfree : table.free = 0
  · left
    simp [handleSlot, hfree, Except.map]
  · right
    cases hnull : firstNull table with
    | none => exact absurd hnull (firstNull_ne_none ht hfree)
    | some i =>
      obtain ⟨hi, hat⟩ := firstNull_eq_some hnull
      have hh : i16 (i + table.index) = i := by
        rw [ht.index]
        exact i16_of_lt (by omega) (by omega)
      refine ⟨i, hi, hat, ?_, fun j hj => firstNull_least hnull hj⟩
      simp only [handleSlot, hfree, hnull, hh, handleNull, if_false]
      rw [if_neg (by omega)]

theorem countP_empty_pos (hi : i < 255) (hat : table.at i = none) :
    0 < table.descs.countP fun hd => hd.kobj.isNone := by
  rw [at_of_lt hi, Option.map_eq_none_iff] at hat
  exact Vector.countP_pos_iff.2 ⟨_, Vector.getElem_mem hi, by simp [hat]⟩

theorem TableOk.take (ht : TableOk table) (hi : i < 255) (hat : table.at i = none) (kobj : Nat)
    (right : UInt32) : TableOk (table.write i ⟨some kobj, right⟩ (table.free - 1)) := by
  have hnull : table.descs[i].kobj = none := by simpa [at_of_lt hi] using hat
  have hpos := countP_empty_pos hi hat
  constructor
  · exact ht.index
  · rw [descs_write hi, Vector.countP_set hi]
    simp only [HandleTable.write, hnull, ht.free, Option.isNone_none, Option.isNone_some, if_true]
    simp
    omega

theorem TableOk.drop (ht : TableOk table) (hi : i < 255) (hat : table.at i = some kr) :
    TableOk (table.write i ⟨none, kobjRightNone⟩ (table.free + 1)) := by
  have hsome : table.descs[i].kobj.isNone = false := by
    rw [at_of_lt hi] at hat
    cases hk : table.descs[i].kobj with
    | none => simp [hk] at hat
    | some k => rfl
  constructor
  · exact ht.index
  · rw [descs_write hi, Vector.countP_set hi]
    simp [HandleTable.write, hsome, ht.free]

/-- What a completed allocation on one page did. -/
theorem handleAlloc_ok (hok : TableOk table) {ref ref' : Nat → Int} {kobj : Nat} {right : UInt32}
    (h : handleAlloc [table] ref kobj right = .ok (handle, tables, ref')) :
    ∃ i : Nat, i < 255 ∧ table.at i = none ∧ handle = i ∧
      tables = [table.write i ⟨some kobj, right⟩ (table.free - 1)] ∧
      0 ≤ ref kobj ∧ ref' = update ref kobj (i32 (1 + ref kobj)) := by
  unfold handleAlloc at h
  obtain ⟨-, hfull⟩ | ⟨i, hi, hat, hslot, -⟩ := handleSlot_single hok kobj right
  · simp [hfull, bind, Except.bind] at h
  · simp only [hslot, bind, Except.bind, kobjectGet_some] at h
    by_cases hr : 0 ≤ ref kobj
    · simp only [hr, if_true, pure, Except.pure, Except.ok.injEq, Prod.mk.injEq] at h
      obtain ⟨rfl, rfl, rfl⟩ := h
      exact ⟨i, hi, hat, rfl, rfl, hr, rfl⟩
    · simp [hr] at h

/-- What a completed free on one page did: nothing, or it emptied the slot. -/
theorem handleFree_ok {ret : Int} (hlo : -32768 ≤ handle) (hhi : handle < 32768)
    {out : Option (Nat × UInt32)} (h : handleFree [table] handle = .ok (ret, out, tables)) :
    (ret < 0 ∧ out = none ∧ tables = [table] ∧ table.at handle = none) ∨
      ∃ (i : Nat) (kr : Nat × UInt32), i < 255 ∧ handle = i ∧ table.at i = some kr ∧ ret = 0 ∧
        out = some kr ∧ tables = [table.write i ⟨none, kobjRightNone⟩ (table.free + 1)] := by
  rw [handleFree_single table hlo hhi] at h
  by_cases hinv : handle < 0 ∨ 32640 ≤ handle
  · simp only [hinv, if_true, Except.ok.injEq, Prod.mk.injEq] at h
    obtain ⟨rfl, rfl, rfl⟩ := h
    exact .inl ⟨by decide, rfl, rfl, at_eq_none_of_le (by omega)⟩
  · by_cases hge : 255 ≤ handle
    · simp [hinv, hge] at h
    · simp only [hinv, hge, if_false] at h
      cases hat : table.at handle with
      | none =>
        simp only [hat, Except.ok.injEq, Prod.mk.injEq] at h
        obtain ⟨rfl, rfl, rfl⟩ := h
        exact .inl ⟨by decide, rfl, rfl, rfl⟩
      | some kr =>
        simp only [hat, Except.ok.injEq, Prod.mk.injEq] at h
        obtain ⟨rfl, rfl, rfl⟩ := h
        obtain ⟨i, rfl⟩ := Int.eq_ofNat_of_zero_le (lt_of_at hat).1
        have hi : i < 255 := by omega
        exact .inr ⟨i, kr, hi, rfl, hat, rfl, rfl, rfl⟩

/-! ## Runs of one process's table -/

/-- A process's tables and the reference words, with the history of its handles:
`owner h` is what the last allocation that returned `h` stored, until `h` is freed. -/
structure State where
  tables : List HandleTable
  ref : Nat → Int
  owner : Int → Option (Nat × UInt32)

/-- `others` is what happens to the reference words elsewhere. -/
inductive Op
  | alloc (kobj : Nat) (right : UInt32)
  | free (handle : Int)
  | others (ref : Nat → Int)

/-- A 16-bit handle comes from wherever the caller has it: `free` narrows it. -/
def step (s : State) : Op → Option State
  | .alloc kobj right =>
    match handleAlloc s.tables s.ref kobj right with
    | .error _ => none
    | .ok (handle, tables, ref) =>
      some ⟨tables, ref, update s.owner handle (some (kobj, right))⟩
  | .free handle =>
    match handleFree s.tables (i16 handle) with
    | .error _ => none
    | .ok (ret, _, tables) =>
      some { s with
        tables := tables
        owner := if ret = 0 then update s.owner (i16 handle) none else s.owner }
  | .others ref => some { s with ref := ref }

def fresh (ref : Nat → Int) : State := ⟨[newHandleTable 0], ref, fun _ => none⟩

/-- The process has one table page, and the page agrees with the history. -/
def Agrees (s : State) : Prop :=
  ∃ table, s.tables = [table] ∧ TableOk table ∧ ∀ h, s.owner h = table.at h

theorem i16_bounds (n : Int) : -32768 ≤ i16 n ∧ i16 n < 32768 := by
  unfold i16; omega

theorem step_agrees {s t : State} {a : Op} (hs : Agrees s) (hstep : step s a = some t) :
    Agrees t := by
  obtain ⟨table, htab, hok, hown⟩ := hs
  cases a with
  | alloc kobj right =>
    simp only [step, htab] at hstep
    split at hstep
    · cases hstep
    · rename_i handle tables ref' halloc
      obtain ⟨i, hi, hat, rfl, rfl, -, -⟩ := handleAlloc_ok hok halloc
      cases hstep
      refine ⟨_, rfl, hok.take hi hat kobj right, fun h => ?_⟩
      simp [at_write hi, update_apply, hown h]
  | free handle =>
    simp only [step, htab] at hstep
    split at hstep
    · cases hstep
    · rename_i ret out tables hfree
      obtain ⟨hret, -, rfl, -⟩ | ⟨i, kr, hi, hh, hat, rfl, -, rfl⟩ :=
        handleFree_ok (i16_bounds handle).1 (i16_bounds handle).2 hfree
      · rw [if_neg (by omega)] at hstep
        cases hstep
        exact ⟨table, rfl, hok, hown⟩
      · cases hstep
        refine ⟨_, rfl, hok.drop hi hat, fun h => ?_⟩
        simp [at_write hi, update_apply, hown h, hh]
  | others ref =>
    cases hstep
    exact ⟨table, htab, hok, hown⟩

theorem fresh_agrees (ref : Nat → Int) : Agrees (fresh ref) :=
  ⟨_, rfl, newHandleTable_ok, fun h => (at_newHandleTable h).symm⟩

/-- The kobject and rights `sys_kobject_send` goes on with after `get_kobject`, or
the error it returns; `junk` is what its two locals held before the call. -/
def sendTarget (got : Got) (junk : Option Nat × UInt32) : Except Int (Option Nat × UInt32) :=
  if got.ret ≠ 0 then .error got.ret
  else match got.out with
    | some (kobj, right) => .ok (some kobj, right)
    | none => .ok junk

/-- What `get_kobject` should do for a handle: an allocated one yields what was
stored for it; any other is refused with a negative error; so a send acts only on
what was stored, whatever its locals held. -/
def Resolves (s : State) (h : Int) : Prop :=
  match getKobject s.tables s.ref h with
  | .error _ => False
  | .ok got =>
    (got.ret = 0 ↔ (s.owner h).isSome) ∧
    (got.ret = 0 → got.out = s.owner h) ∧
    (got.ret ≠ 0 → got.ret < 0) ∧
    ∀ junk kobj right, sendTarget got junk = .ok (kobj, right) →
      ∃ k, kobj = some k ∧ s.owner h = some (k, right)

/-- **Handles.** In every state that allocations and frees reach, a handle resolves
rightly exactly when it is negative or past `PROC_MAX_HANDLE`, or allocated with a
kobject whose count is not negative. On an empty slot of the page `get_kobject`
returns 0 and writes nothing; past the page it follows the null `next`. -/
theorem get_kobject_iff {ref : Nat → Int} {s : State}
    (hs : Steps step (fun _ _ => True) (fresh ref) s) {h : Int} (hlo : -32768 ≤ h)
    (hhi : h < 32768) :
    Resolves s h ↔
      h < 0 ∨ 32640 ≤ h ∨ ∃ kobj right, s.owner h = some (kobj, right) ∧ 0 ≤ s.ref kobj := by
  obtain ⟨table, htab, -, hown⟩ :=
    hs.invariant (fresh_agrees ref) fun _ _ _ hi _ hst => step_agrees hi hst
  unfold Resolves
  rw [htab, getKobject_single table s.ref hlo hhi, hown h, ← or_assoc]
  by_cases hinv : h < 0 ∨ 32640 ≤ h
  · have hnone : table.at h = none := at_eq_none_of_le (by omega)
    simp [hinv, hnone, sendTarget, enoent]
  · by_cases hge : 255 ≤ h
    · have hnone : table.at h = none := at_eq_none_of_le (.inr hge)
      simp [hinv, hge, hnone]
    · cases hat : table.at h with
      | none => simp [hinv, hge, sendTarget]
      | some kr =>
        obtain ⟨k, r⟩ := kr
        by_cases hr : 0 ≤ s.ref k
        · simp [hinv, hge, sendTarget, hr]
        · simp [hinv, hge, hr]

/-- The allocations of `init_proc_handles`, for a process whose kobject is 1. -/
def firstOps : List Op :=
  [.alloc 1 (kobjRightWrite ||| kobjRightCtl), .alloc 0 kobjRightRead, .alloc 0 kobjRightWrite,
    .alloc 0 kobjRightWrite]

theorem get_kobject_iff_stdout :
    ∃ s, Steps step (fun _ _ => True) (fresh fun _ => 0) s ∧
      s.owner 2 = some (0, kobjRightWrite) ∧ Resolves s 2 := by
  have hvals : (run step (fresh fun _ => 0) firstOps).map (fun s => (s.owner 2, s.ref 0)) =
      some (some (0, kobjRightWrite), 3) := by decide +kernel
  obtain ⟨s, hs, hv⟩ := Option.map_eq_some_iff.1 hvals
  obtain ⟨hown, href⟩ := Prod.mk.injEq .. ▸ hv
  have hrun : Steps step (fun _ _ => True) (fresh fun _ => 0) s :=
    Steps.refl.run (fun _ _ => trivial) hs
  refine ⟨s, hrun, hown, (get_kobject_iff hrun (by decide) (by decide)).2 (.inr (.inr ?_))⟩
  exact ⟨0, kobjRightWrite, hown, by omega⟩

/-- After the four allocations of `init_proc_handles` handle 4 was never handed
out, but `get_kobject` returns 0 for it and writes nothing, so a send goes on with
whatever its locals held. -/
theorem get_kobject_empty_slot :
    ∃ s, Steps step (fun _ _ => True) (fresh fun _ => 0) s ∧ s.owner 4 = none ∧
      ¬ Resolves s 4 ∧
      ∃ got, getKobject s.tables s.ref 4 = .ok got ∧ got.ret = 0 ∧
        ∀ junk, sendTarget got junk = .ok junk := by
  have hvals : (run step (fresh fun _ => 0) firstOps).map (fun s =>
      (s.owner 4, (getKobject s.tables s.ref 4).toOption.map fun got => (got.ret, got.out))) =
      some (none, some (0, none)) := by decide +kernel
  obtain ⟨s, hs, hv⟩ := Option.map_eq_some_iff.1 hvals
  obtain ⟨hown, hgot⟩ := Prod.mk.injEq .. ▸ hv
  have hrun : Steps step (fun _ _ => True) (fresh fun _ => 0) s :=
    Steps.refl.run (fun _ _ => trivial) hs
  cases hg : getKobject s.tables s.ref 4 with
  | error f => simp [hg, Except.toOption] at hgot
  | ok got =>
    simp only [hg, Except.toOption, Option.map_some, Option.some.injEq, Prod.mk.injEq] at hgot
    obtain ⟨hret, hout⟩ := hgot
    refine ⟨s, hrun, hown, ?_, got, hg, hret, fun junk => by simp [sendTarget, hret, hout]⟩
    simp [Resolves, hg, hret, hown]

end SpringOs.Handle
