import SpringOs.Handle

/-!
The handle table of a process as a finite map from handles to kobjects with rights.

The map is the history `owner` that runs of `__handle_alloc` and `__handle_free` keep beside
the table. A kobject counts as released when its reference word is negative.

* `handleAlloc_least`: with an empty slot left, an allocation takes the first;
* `initProcHandles_agrees`: the map `init_proc_handles` leaves;
* **`handle_table_map`**: in every state reached from there the table is the map.
-/

namespace SpringOs.HandleMap
open Kernel Lib.Word Lib.Machine Handle
open Function (update update_apply)

/-- Allocations of kobjects that are not released, while a handle is left, and frees of
handles below 255. -/
def ok (s : State) : Op → Prop
  | .alloc kobj _ => 0 ≤ s.ref kobj ∧ ∃ h : Nat, h < 255 ∧ s.owner h = none
  | .free handle => -32768 ≤ handle ∧ handle < 255
  | .others _ => True

/-- The handles of a new process: itself, and the standard streams. -/
def firstMap (self stdio : Nat) : Int → Option (Nat × UInt32)
  | 0 => some (self, kobjRightWrite ||| kobjRightCtl)
  | 1 => some (stdio, kobjRightRead)
  | 2 => some (stdio, kobjRightWrite)
  | 3 => some (stdio, kobjRightWrite)
  | _ => none

variable {table : HandleTable} {ref : Nat → Int} {kobj : Nat} {tables : List HandleTable}

theorem free_ne_zero (hok : TableOk table) {i : Nat} (hi : i < 255) (hat : table.at i = none) :
    table.free ≠ 0 := by
  have hpos := countP_empty_pos hi hat
  rw [hok.free]
  omega

/-- **`__handle_alloc`** on a page with an empty slot. -/
theorem handleAlloc_least (hok : TableOk table) (href : 0 ≤ ref kobj) (right : UInt32) {j : Nat}
    (hj : j < 255) (hnone : table.at j = none) :
    ∃ i : Nat, i < 255 ∧ table.at i = none ∧ (∀ l : Nat, l < i → table.at l ≠ none) ∧
      handleAlloc [table] ref kobj right =
        .ok ((i : Int), [table.write i ⟨some kobj, right⟩ (table.free - 1)],
          update ref kobj (i32 (1 + ref kobj))) := by
  obtain ⟨hfull, -⟩ | ⟨i, hi, hat, hslot, hmin⟩ := handleSlot_single hok kobj right
  · exact absurd hfull (free_ne_zero hok hj hnone)
  · refine ⟨i, hi, hat, hmin, ?_⟩
    rw [handleAlloc, hslot]
    simp only [bind, Except.bind, kobjectGet_some, href, if_true]
    rfl

/-! ## The first handles -/

theorem allocExpect_agrees {m : Int → Option (Nat × UInt32)} (hs : Agrees ⟨tables, ref, m⟩)
    {right : UInt32} {expected : Int} {s : List HandleTable × (Nat → Int)}
    (h : allocExpect kobj right expected (tables, ref) = .ok s) :
    Agrees ⟨s.1, s.2, update m expected (some (kobj, right))⟩ := by
  unfold allocExpect at h
  obtain ⟨⟨handle, tables', ref'⟩, halloc, h⟩ := ok_of_bind h
  simp only at h
  split at h
  · rename_i heq
    cases h
    refine step_agrees (a := .alloc kobj right) hs ?_
    simp only [step, halloc, heq]
  · cases h

theorem initProcHandles_agrees {ref' : Nat → Int} {self stdio : Nat}
    (h : initProcHandles ref self stdio = .ok (tables, ref')) :
    Agrees ⟨tables, ref', firstMap self stdio⟩ := by
  unfold initProcHandles at h
  obtain ⟨s1, h1, h⟩ := ok_of_bind h
  obtain ⟨s2, h2, h⟩ := ok_of_bind h
  obtain ⟨s3, h3, h⟩ := ok_of_bind h
  have ha1 := allocExpect_agrees (fresh_agrees ref) h1
  have ha2 := allocExpect_agrees ha1 h2
  have ha3 := allocExpect_agrees ha2 h3
  have ha4 := allocExpect_agrees ha3 h
  have hmap : firstMap self stdio = update (update (update
      (update (fresh ref).owner 0 (some (self, kobjRightWrite ||| kobjRightCtl))) 1
      (some (stdio, kobjRightRead))) 2 (some (stdio, kobjRightWrite))) 3
      (some (stdio, kobjRightWrite)) := by
    funext i
    simp only [update_apply, firstMap, fresh]
    split <;> simp_all
  rw [hmap]
  exact ha4

/-! ## Every run -/

/-- **The handle table is a finite map**, in every state that allocations and frees reach
from `init_proc_handles`: an allocation returns the smallest handle that is not live and
binds it to the kobject and right, the free of a live handle returns the stored pair and
unbinds it, any other free changes nothing, and `free` counts the empty slots. -/
theorem handle_table_map {ref ref' : Nat → Int} {self stdio : Nat} {tables : List HandleTable}
    (hinit : initProcHandles ref self stdio = .ok (tables, ref')) {s : State}
    (hs : Steps step ok ⟨tables, ref', firstMap self stdio⟩ s) :
    ∃ table, s.tables = [table] ∧ (∀ h, table.at h = s.owner h) ∧
      table.free = (table.descs.countP fun hd => hd.kobj.isNone : Nat) ∧
      (∀ kobj right, ok s (.alloc kobj right) →
        ∃ (h : Nat) (table' : HandleTable) (ref' : Nat → Int),
        h < 255 ∧ s.owner h = none ∧ (∀ j : Nat, j < h → s.owner j ≠ none) ∧
        handleAlloc s.tables s.ref kobj right = .ok ((h : Int), [table'], ref') ∧
        ∀ j, table'.at j = if j = h then some (kobj, right) else s.owner j) ∧
      (∀ (h : Nat) (kr : Nat × UInt32), h < 255 → s.owner h = some kr → ∃ table',
        handleFree s.tables h = .ok (0, some kr, [table']) ∧
        ∀ j, table'.at j = if j = h then none else s.owner j) ∧
      (∀ h : Nat, h < 255 → s.owner h = none →
        handleFree s.tables h = .ok (-eperm, none, s.tables)) ∧
      ∀ h : Int, -32768 ≤ h → h < 0 → handleFree s.tables h = .ok (-enoent, none, s.tables) := by
  obtain ⟨table, htab, hok, hown⟩ := hs.invariant (initProcHandles_agrees hinit)
    fun _ _ _ hi _ hst => step_agrees hi hst
  refine ⟨table, htab, fun h => (hown h).symm, hok.free, ?_, ?_, ?_, ?_⟩
  · rintro kobj right ⟨href, j, hj, hnone⟩
    rw [hown] at hnone
    obtain ⟨i, hi, hat, hmin, halloc⟩ := handleAlloc_least hok href right hj hnone
    refine ⟨i, _, _, hi, by rw [hown, hat], fun l hl => ?_, by rw [htab, halloc], fun l => ?_⟩
    · rw [hown]
      exact hmin l hl
    · rw [at_write hi, hown]
      rfl
  · intro h kr hh hlive
    rw [hown] at hlive
    rw [htab, handleFree_single table (by omega) (by omega), if_neg (by omega), if_neg (by omega),
      hlive]
    refine ⟨_, rfl, fun l => ?_⟩
    rw [Int.toNat_natCast, at_write hh, hown]
    rfl
  · intro h hh hdead
    rw [hown] at hdead
    rw [htab, handleFree_single table (by omega) (by omega), if_neg (by omega), if_neg (by omega),
      hdead]
  · intro h hlo hneg
    rw [htab, handleFree_single table hlo (by omega), if_pos (.inl hneg)]

/-- The process whose kobject is 1: its next handle is 4. -/
theorem handle_table_map_first :
    ∃ tables ref, initProcHandles (fun _ => 0) 1 0 = .ok (tables, ref) ∧
      ∃ tables' ref', handleAlloc tables ref 7 kobjRightRead = .ok (4, tables', ref') := by
  have hvals : (initProcHandles (fun _ => 0) 1 0).toOption.map (fun r => r.2 7) = some 0 := by
    decide +kernel
  obtain ⟨⟨tables, ref⟩, hrun, href⟩ := Option.map_eq_some_iff.1 hvals
  have hinit := ok_of_toOption hrun
  obtain ⟨table, -, -, -, halloc, -⟩ := handle_table_map hinit .refl
  obtain ⟨h, table', ref', -, hnone, hmin, hret, -⟩ := halloc 7 kobjRightRead
    ⟨by simp only at href ⊢; omega, 4, by decide, rfl⟩
  refine ⟨tables, ref, hinit, [table'], ref', ?_⟩
  have h4 : ¬ 4 < h := fun hlt => hmin 4 hlt rfl
  have hge : ∀ j < 4, firstMap 1 0 (j : Nat) ≠ none := by decide
  have hlt : ¬ h < 4 := fun hlt => hge h hlt hnone
  obtain rfl : h = 4 := by omega
  exact hret

end SpringOs.HandleMap
