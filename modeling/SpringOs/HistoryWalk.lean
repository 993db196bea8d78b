import Mathlib.Data.List.Induction
import SpringOs.LineEditor

/-!
The walk through the history of the line editor (`linerecord_prev`, `linerecord_next`).

One index serves both keys. Behind a press of up it stands on the record to show next, behind one
of down on the record that is shown, so that a change of direction shows the wrong record; and
with one record a press of down leaves the index at -1 for good.

* `slotOf`: the record a press brings back, `linerecord[slot]`;
* `Walks`, `Reach`: one position that up and down move, and what can still be shown;
* `walks_iff`: which changes of direction the index survives;
* `reach_of_nonneg`, `not_reach_of_neg`: what can be shown from an index;
* **`history_walk_iff`**: the sequences of presses that are a walk.
-/

namespace SpringOs.Readline
open Lib.Bytes

/-! ## Presses -/

inductive Press
  | up
  | down
  deriving DecidableEq, Repr

def recalled (h : History) : Press → Option (List Byte) × History
  | .up => linerecordPrev h
  | .down => linerecordNext h

def after (h : History) (presses : List Press) : History :=
  presses.foldl (fun h p => (recalled h p).2) h

/-- The record the key brings back: the place in `linerecord` that is returned. -/
def slotOf (h : History) : Press → Option Nat
  | .up => if 0 ≤ h.rindex then some h.rindex.toNat else none
  | .down =>
    if 0 ≤ stepBack h.lines.length h.rindex then
      some (stepBack h.lines.length h.rindex + 1).toNat
    else none

theorem record_eq (h : History) {i : Int} (hlow : 0 ≤ i) (hhigh : i < h.lines.length) :
    some (h.record i hlow hhigh) = h.lines[i.toNat]? :=
  (List.getElem?_eq_getElem _).symm

theorem recalled_slot (h : History) (p : Press) :
    (recalled h p).1 = (slotOf h p).bind fun k => h.lines[k]? := by
  cases p with
  | up =>
    rw [recalled, linerecordPrev, slotOf]
    split
    · rename_i hzero
      rw [if_pos (by omega)]
      exact record_eq h _ _
    · split
      · rename_i hpos
        rw [if_pos (by omega)]
        exact record_eq h _ _
      · rw [if_neg (by omega)]
        rfl
  | down =>
    rw [recalled, linerecordNext, slotOf]
    split
    · exact record_eq h _ _
    · rfl

/-! ## The index -/

/-- `record_rindex` after `linerecord_prev`. -/
def upIndex (r : Int) : Int := if 0 < r then r - 1 else r

/-- `record_rindex` after `linerecord_next`, with `n` records. -/
def downIndex (n : Nat) (r : Int) : Int :=
  stepBack n (if 0 ≤ stepBack n r then stepBack n r + 1 else stepBack n r)

theorem recalled_lines (h : History) (p : Press) : (recalled h p).2.lines = h.lines := by
  cases p with
  | up => exact (linerecordPrev_recalls h).1
  | down => exact (linerecordNext_recalls h).1

theorem recalled_up (h : History) : (recalled h .up).2.rindex = upIndex h.rindex := by
  rw [recalled, linerecordPrev, upIndex]
  split
  · rw [if_neg (by omega)]
  · split
    · rfl
    · rfl

theorem recalled_down (h : History) :
    (recalled h .down).2.rindex = downIndex h.lines.length h.rindex := by
  rw [recalled, linerecordNext, downIndex]
  split
  · rfl
  · rfl

def added (items : List (List Byte)) : History := items.foldl linerecordAdd History.empty

/-! ## The walk that is meant -/

/-- The newest of `n` lines first, then the next older one. -/
def older (n : Nat) : Option Nat → Nat
  | none => n - 1
  | some k => k - 1

def newer (n k : Nat) : Nat := min (k + 1) (n - 1)

/-- The presses move one position, that of the line shown last. Nothing is asked of a press of down
before the first of up. -/
def Walks : Option Nat → History → List Press → Prop
  | _, _, [] => True
  | shown, h, .up :: presses =>
    slotOf h .up = some (older h.lines.length shown) ∧
      Walks (some (older h.lines.length shown)) (recalled h .up).2 presses
  | none, h, .down :: presses => Walks none (recalled h .down).2 presses
  | some k, h, .down :: presses =>
    slotOf h .down = some (newer h.lines.length k) ∧
      Walks (some (newer h.lines.length k)) (recalled h .down).2 presses

def Reach (h : History) (k : Nat) : Prop :=
  ∃ presses p, slotOf (after h presses) p = some k

/-! ## Changes of direction -/

/-- Where the index stands behind a press that showed record `k`. -/
def Behind (n k : Nat) : Press → Int → Prop
  | .up, r => r = (k - 1 : Nat)
  | .down, r => if k + 1 = n then r + 2 = n else 1 ≤ k ∧ r = k

/-- The changes of direction the index survives: to down on the newest line or the oldest one, and
to up on the newest. -/
def Turns (n : Nat) : Nat → Press → List Press → Prop
  | _, _, [] => True
  | k, last, .up :: presses => (last = .down → k + 1 = n) ∧ Turns n (k - 1) .up presses
  | k, last, .down :: presses =>
    (last = .up → k + 1 = n ∨ k = 0) ∧ Turns n (newer n k) .down presses

section
variable {n k : Nat} {last : Press} {r : Int}

theorem Behind.nonneg (hn : 2 ≤ n) (hb : Behind n k last r) : 0 ≤ r := by
  cases last with
  | up =>
    rw [Behind] at hb
    omega
  | down =>
    rw [Behind] at hb
    split at hb <;> omega

theorem Behind.up_iff (hn : 2 ≤ n) (hb : Behind n k last r) :
    r = (k - 1 : Nat) ↔ (last = .down → k + 1 = n) := by
  cases last with
  | up => exact ⟨nofun, fun _ => hb⟩
  | down =>
    rw [Behind] at hb
    split at hb
    · rename_i hend
      exact ⟨fun _ _ => hend, fun _ => by omega⟩
    · rename_i hend
      exact ⟨fun _ _ => by omega, fun h => absurd (h rfl) hend⟩

/-- No press leaves the index on the newest record. -/
theorem Behind.stepBack (hn : 2 ≤ n) (hk : k < n) (hb : Behind n k last r) :
    Readline.stepBack n r = r := by
  refine if_neg ?_
  cases last with
  | up =>
    rw [Behind] at hb
    omega
  | down =>
    rw [Behind] at hb
    split at hb <;> omega

theorem Behind.down_iff (hn : 2 ≤ n) (hk : k < n) (hb : Behind n k last r) :
    r + 1 = newer n k ↔ (last = .up → k + 1 = n ∨ k = 0) := by
  rw [newer]
  cases last with
  | up =>
    rw [Behind] at hb
    refine ⟨fun _ _ => by omega, fun h => ?_⟩
    have hend := h rfl
    omega
  | down =>
    refine ⟨nofun, fun _ => ?_⟩
    rw [Behind] at hb
    split at hb <;> omega

theorem behind_up : Behind n k .up (upIndex k) := by
  rw [Behind, upIndex]
  split <;> omega

theorem behind_down (hn : 2 ≤ n) (hback : stepBack n r = r) (hr : r + 1 = newer n k) :
    Behind n (newer n k) .down (downIndex n r) := by
  have hnewer : 1 ≤ newer n k ∧ newer n k ≤ n - 1 := by
    rw [newer]
    omega
  rw [downIndex, hback, if_pos (by omega), hr, Behind, stepBack]
  split_ifs <;> omega

end

variable {k : Nat} {h : History}

/-- From two lines on, and once a line is shown. -/
theorem walks_iff {n : Nat} {last : Press} (hn : 2 ≤ n) (hlen : h.lines.length = n) (hk : k < n)
    (hb : Behind n k last h.rindex) (presses : List Press) :
    Walks (some k) h presses ↔ Turns n k last presses := by
  induction presses generalizing h k last with
  | nil => exact Iff.rfl
  | cons p presses ih =>
    have hlines := (congrArg List.length (recalled_lines h p)).trans hlen
    cases p with
    | up =>
      have hslot : slotOf h .up = some (k - 1) ↔ (last = .down → k + 1 = n) := by
        have hlow := hb.nonneg hn
        rw [slotOf, if_pos hlow, Option.some_inj, ← hb.up_iff hn]
        omega
      rw [Walks, Turns, older, hslot]
      refine and_congr_right fun hturn => ih hlines (by omega) ?_
      rw [recalled_up, (hb.up_iff hn).mpr hturn]
      exact behind_up
    | down =>
      have hback := hb.stepBack hn hk
      have hslot : slotOf h .down = some (newer n k) ↔ (last = .up → k + 1 = n ∨ k = 0) := by
        have hlow := hb.nonneg hn
        rw [slotOf, hlen, hback, if_pos hlow, Option.some_inj, ← hb.down_iff hn hk]
        omega
      rw [Walks, Turns, hlen, hslot]
      refine and_congr_right fun hturn => ih hlines (by rw [newer]; omega) ?_
      rw [recalled_down, hlen]
      exact behind_down hn hback ((hb.down_iff hn hk).mpr hturn)

/-- Before the first press of up a press of down takes the newest line from it. -/
theorem walks_down_iff {n : Nat} (hn : 2 ≤ n) (hlen : h.lines.length = n) (hr : h.rindex + 2 = n)
    (presses : List Press) : Walks none h presses ↔ .up ∉ presses := by
  induction presses generalizing h with
  | nil => exact ⟨fun _ => List.not_mem_nil, fun _ => trivial⟩
  | cons p presses ih =>
    cases p with
    | up =>
      refine ⟨fun hwalks => ?_, fun hno => absurd List.mem_cons_self hno⟩
      have hslot := hwalks.1
      rw [slotOf, if_pos (by omega), Option.some_inj, older] at hslot
      omega
    | down =>
      have hlines := (congrArg List.length (recalled_lines h .down)).trans hlen
      have hindex : (recalled h .down).2.rindex + 2 = n := by
        rw [recalled_down, hlen, downIndex, stepBack, stepBack]
        split_ifs <;> omega
      rw [Walks, ih hlines hindex, List.mem_cons, or_iff_right (by decide)]

/-! ## What can be shown -/

theorem after_lines (h : History) (presses : List Press) : (after h presses).lines = h.lines := by
  induction presses generalizing h with
  | nil => rfl
  | cons p presses ih => exact (ih _).trans (recalled_lines h p)

theorem Reach.step (p : Press) (hreach : Reach (recalled h p).2 k) : Reach h k := by
  obtain ⟨presses, q, hslot⟩ := hreach
  exact ⟨p :: presses, q, hslot⟩

theorem reach_below (hk : k ≤ h.rindex) : Reach h k := by
  generalize hd : (h.rindex - k).toNat = d
  induction d generalizing h with
  | zero =>
    refine ⟨[], .up, ?_⟩
    change slotOf h .up = some k
    rw [slotOf, if_pos (by omega), Option.some_inj]
    omega
  | succ d ih =>
    have hindex : (recalled h .up).2.rindex = h.rindex - 1 := by
      rw [recalled_up, upIndex, if_pos (by omega)]
    exact .step .up (ih (by omega) (by omega))

theorem reach_above (hr : 0 ≤ h.rindex) (hlt : h.rindex < k) (hk : k < h.lines.length) :
    Reach h k := by
  generalize hd : (k - h.rindex - 1).toNat = d
  have hback : stepBack h.lines.length h.rindex = h.rindex := if_neg (by omega)
  induction d generalizing h with
  | zero =>
    refine ⟨[], .down, ?_⟩
    change slotOf h .down = some k
    rw [slotOf, hback, if_pos hr, Option.some_inj]
    omega
  | succ d ih =>
    have hlines := recalled_lines h .down
    have hindex : (recalled h .down).2.rindex = h.rindex + 1 := by
      rw [recalled_down, downIndex, hback, if_pos hr]
      exact if_neg (by omega)
    refine .step .down (ih (by omega) (by omega) (by rwa [hlines]) (by omega) ?_)
    exact if_neg (by rw [hlines]; omega)

/-- Up shows what is below the index, down what is above it. -/
theorem reach_of_nonneg (hr : 0 ≤ h.rindex) (hk : k < h.lines.length) : Reach h k := by
  by_cases hlt : h.rindex < k
  · exact reach_above hr hlt hk
  · exact reach_below (Int.not_lt.mp hlt)

theorem after_nonneg (hn : 2 ≤ h.lines.length) (hr : 0 ≤ h.rindex) (presses : List Press) :
    0 ≤ (after h presses).rindex := by
  induction presses generalizing h with
  | nil => exact hr
  | cons p presses ih =>
    refine ih (by rwa [recalled_lines]) ?_
    cases p with
    | up =>
      rw [recalled_up, upIndex]
      split <;> omega
    | down =>
      rw [recalled_down, downIndex, stepBack, stepBack]
      split_ifs <;> omega

section
variable {h : History} (hn : h.lines.length = 1)
include hn

/-- With one record the index does not come back from -1. -/
theorem after_neg (hr : h.rindex = -1) (presses : List Press) :
    (after h presses).rindex = -1 := by
  induction presses generalizing h with
  | nil => exact hr
  | cons p presses ih =>
    refine ih (by rwa [recalled_lines]) ?_
    cases p with
    | up =>
      rw [recalled_up, hr]
      rfl
    | down =>
      rw [recalled_down, hn, hr]
      rfl

theorem not_reach_of_neg (hr : h.rindex = -1) {k : Nat} : ¬ Reach h k := by
  rintro ⟨presses, p, hslot⟩
  have hlines := (congrArg List.length (after_lines h presses)).trans hn
  have hindex := after_neg hn hr presses
  cases p with
  | up =>
    rw [slotOf, hindex] at hslot
    cases hslot
  | down =>
    rw [slotOf, hindex, hlines] at hslot
    cases hslot

theorem after_down (hr : h.rindex = 0) {presses : List Press} (hdown : .down ∈ presses) :
    (after h presses).rindex = -1 := by
  induction presses generalizing h with
  | nil => cases hdown
  | cons p presses ih =>
    have hlines : (recalled h p).2.lines.length = 1 := by rwa [recalled_lines]
    cases p with
    | up =>
      refine ih hlines ?_ (List.mem_of_ne_of_mem (show Press.down ≠ .up from nofun) hdown)
      rw [recalled_up, hr]
      rfl
    | down =>
      refine after_neg hlines ?_ presses
      rw [recalled_down, hn, hr]
      rfl

theorem walks_one (hr : h.rindex = 0) {shown : Option Nat} (hshown : older 1 shown = 0)
    {presses : List Press} (hdown : .down ∉ presses) :
    Walks shown h presses ∧ (after h presses).rindex = 0 := by
  induction presses generalizing h shown with
  | nil => exact ⟨trivial, hr⟩
  | cons p presses ih =>
    cases p with
    | down => exact absurd List.mem_cons_self hdown
    | up =>
      have hindex : (recalled h .up).2.rindex = 0 := by
        rw [recalled_up, hr]
        rfl
      have hrest := ih (by rwa [recalled_lines]) hindex (show older 1 (some 0) = 0 from rfl)
        fun hmem => hdown (List.mem_cons_of_mem _ hmem)
      refine ⟨?_, hrest.2⟩
      rw [Walks, hn, hshown, slotOf, hr]
      exact ⟨rfl, hrest.1⟩

end

/-! ## The lines added -/

theorem added_append (items : List (List Byte)) (item : List Byte) :
    added (items ++ [item]) = linerecordAdd (added items) item := by
  rw [added, List.foldl_append]
  rfl

theorem added_index {items : List (List Byte)} (hne : items ≠ []) :
    0 ≤ (added items).rindex ∧ (added items).rindex + 1 = (added items).lines.length := by
  obtain ⟨init, item, rfl⟩ := (List.eq_nil_or_concat' items).resolve_left hne
  rw [added_append, linerecordAdd]
  dsimp only
  rw [List.length_append, List.length_singleton]
  omega

theorem added_lines (items : List (List Byte)) :
    (added items).lines =
      (items.map (List.takeWhile (· ≠ 0))).drop (items.length - maxRecord) := by
  induction items using List.reverseRecOn with
  | nil => rfl
  | append_singleton items item ih =>
    have hlen : (added items).lines.length = min items.length 4 := by
      rw [ih, List.length_drop, List.length_map, maxRecord]
      omega
    have hadd : (added (items ++ [item])).lines =
        (added items).kept ++ [item.takeWhile (· ≠ 0)] := by
      rw [added_append]
      rfl
    rw [hadd, History.kept, hlen, List.map_append, List.length_append, List.length_singleton,
      List.drop_append_of_le_length (by rw [List.length_map, maxRecord]; omega)]
    refine congrArg (· ++ _) ?_
    rw [maxRecord] at *
    split
    · rw [ih, List.drop_drop]
      congr 1
      omega
    · rw [ih]
      congr 1
      omega

/-! ## Every sequence of presses -/

structure WalkRight (items : List (List Byte)) (presses : List Press) : Prop where
  kept : (added items).lines =
    (items.map (List.takeWhile (· ≠ 0))).drop (items.length - maxRecord)
  walks : Walks none (added items) presses
  reach : ∀ k < (added items).lines.length, Reach (after (added items) presses) k

def Begins (n : Nat) : List Press → Prop
  | [] => True
  | .up :: presses => Turns n (n - 1) .up presses
  | .down :: presses => .up ∉ presses

/-- With one line no press of down; otherwise no press of up where the first one is of down, and no
change of direction but those the index survives. -/
def Steady (n : Nat) (presses : List Press) : Prop :=
  if n = 1 then .down ∉ presses else Begins n presses

theorem walks_none_iff {n : Nat} {h : History} (hn : 2 ≤ n) (hlen : h.lines.length = n)
    (hr : h.rindex + 1 = n) (presses : List Press) :
    Walks none h presses ↔ Begins n presses := by
  cases presses with
  | nil => exact Iff.rfl
  | cons p presses =>
    have hlines := (congrArg List.length (recalled_lines h p)).trans hlen
    cases p with
    | up =>
      have hslot : slotOf h .up = some (n - 1) := by
        rw [slotOf, if_pos (by omega), Option.some_inj]
        omega
      have hindex : h.rindex = (n - 1 : Nat) := by omega
      have hlast : n - 1 < n := by omega
      rw [Walks, hlen, older, and_iff_right hslot]
      refine walks_iff hn hlines hlast ?_ presses
      rw [recalled_up, hindex]
      exact behind_up
    | down =>
      have hindex : (recalled h .down).2.rindex + 2 = n := by
        rw [recalled_down, hlen, downIndex, stepBack, stepBack]
        split_ifs <;> omega
      exact walks_down_iff hn hlines hindex presses

theorem history_walk_iff {items : List (List Byte)} (hne : items ≠ []) (presses : List Press) :
    WalkRight items presses ↔ Steady (added items).lines.length presses := by
  obtain ⟨hlow, hindex⟩ := added_index hne
  rw [Steady]
  split
  · rename_i hone
    have hzero : (added items).rindex = 0 := by omega
    constructor
    · intro hright hdown
      refine not_reach_of_neg ?_ (after_down hone hzero hdown) (hright.reach 0 (by omega))
      rwa [after_lines]
    · intro hdown
      obtain ⟨hwalks, hstays⟩ := walks_one hone hzero (show older 1 none = 0 from rfl) hdown
      refine ⟨added_lines items, hwalks, fun k hk => reach_of_nonneg (by omega) ?_⟩
      rwa [after_lines]
  · rename_i hone
    have hn : 2 ≤ (added items).lines.length := by omega
    rw [← walks_none_iff hn rfl hindex]
    refine ⟨fun hright => hright.walks, fun hwalks => ⟨added_lines items, hwalks, fun k hk => ?_⟩⟩
    refine reach_of_nonneg (after_nonneg hn hlow presses) ?_
    rwa [after_lines]

/-- Three lines: up to the oldest and down again. -/
theorem history_walk_back :
    WalkRight [[97], [98], [99]] [.up, .up, .up, .down, .down] :=
  (history_walk_iff (by decide) _).mpr ⟨nofun, nofun, fun _ => .inr rfl, nofun, trivial⟩

/-- Of three lines the middle one is shown twice in a row; and one line alone is lost for good by a
press of down. -/
theorem history_walk_stumbles :
    (recalled (after (added [[97], [98], [99]]) [.up]) .up).1 = some [98] ∧
    (recalled (after (added [[97], [98], [99]]) [.up, .up]) .down).1 = some [98] ∧
    ∀ presses, (recalled (after (added [[97]]) (.down :: presses)) .up).1 = none := by
  refine ⟨rfl, rfl, fun presses => ?_⟩
  have hindex : (after (added [[97]]) (.down :: presses)).rindex = -1 :=
    after_down rfl rfl List.mem_cons_self
  rw [recalled_slot, slotOf, hindex]
  rfl

end SpringOs.Readline
