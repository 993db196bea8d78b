import Mathlib.Data.List.Basic
import Mathlib.Data.List.GetD
import SpringOs.Lib.Bytes

/-!
One line of a terminal, as wide as needed: the bytes sent to it, and what it shows.

Bytes are printed at the cursor; `\b` moves it back by one, and the sequences `ESC [ n C` and
`ESC [ n D` by `n`. Every other control byte or sequence is ignored.

* **`step`**, **`run`**: the interpreter;
* `line s k`: the line shows `s`, with the cursor in column `k`;
* `run_forward`, `run_backward`: the sequences for moving the cursor;
* `run_text`, `run_erase`: printing over the line, and erasing its end.
-/

namespace SpringOs.Lib.Terminal
open Bytes
open Function (update update_self update_of_ne)

/-- What is expected: a byte to show, the bracket of a sequence, or its number so far. -/
inductive Mode
  | ground
  | escape
  | csi (n : Nat)
  deriving DecidableEq, Repr

structure Term where
  cells : Nat → Byte
  cursor : Nat
  mode : Mode

def blank : Byte := 32

def Printable (b : Byte) : Prop := 32 ≤ b.toNat ∧ b.toNat ≠ 127

instance (b : Byte) : Decidable (Printable b) := inferInstanceAs (Decidable (_ ∧ _))

def step (t : Term) (b : Byte) : Term :=
  match t.mode with
  | .ground =>
    if b = 27 then { t with mode := .escape }
    else if b = 8 then { t with cursor := t.cursor - 1 }
    else if Printable b then
      { t with cells := update t.cells t.cursor b, cursor := t.cursor + 1 }
    else t
  | .escape => if b = 91 then { t with mode := .csi 0 } else { t with mode := .ground }
  | .csi n =>
    if 48 ≤ b.toNat ∧ b.toNat ≤ 57 then { t with mode := .csi (10 * n + (b.toNat - 48)) }
    -- a missing number, and 0, count as 1
    else if b = 67 then { t with cursor := t.cursor + max n 1, mode := .ground }
    else if b = 68 then { t with cursor := t.cursor - max n 1, mode := .ground }
    else { t with mode := .ground }

def run (t : Term) (bytes : List Byte) : Term := bytes.foldl step t

theorem run_append (t : Term) (l r : List Byte) : run t (l ++ r) = run (run t l) r :=
  List.foldl_append ..

theorem run_cons (t : Term) (b : Byte) (l : List Byte) : run t (b :: l) = run (step t b) l := rfl

/-- The line shows `s` and is blank behind it. -/
def line (s : List Byte) (k : Nat) : Term := ⟨fun i => s.getD i blank, k, .ground⟩

/-! ## Moving the cursor -/

def decimal (n : Nat) : List Byte :=
  if n < 10 then [.ofNat 8 (48 + n)] else decimal (n / 10) ++ [.ofNat 8 (48 + n % 10)]

def forward (n : Nat) : List Byte := [27, 91] ++ decimal n ++ [67]

def backward (n : Nat) : List Byte := [27, 91] ++ decimal n ++ [68]

theorem step_digit (t : Term) (n : Nat) {d : Nat} (hd : d < 10) :
    step { t with mode := .csi n } (.ofNat 8 (48 + d)) = { t with mode := .csi (10 * n + d) } := by
  have hbyte : (BitVec.ofNat 8 (48 + d)).toNat = 48 + d := by
    rw [BitVec.toNat_ofNat]
    omega
  simp only [step, hbyte]
  rw [if_pos (by omega), Nat.add_sub_cancel_left]

theorem run_decimal (t : Term) (n : Nat) :
    run { t with mode := .csi 0 } (decimal n) = { t with mode := .csi n } := by
  induction n using Nat.strongRecOn with
  | ind n ih =>
    rw [decimal]
    split
    · rename_i hlt
      have h := step_digit t 0 hlt
      rwa [Nat.mul_zero, Nat.zero_add] at h
    · rename_i hge
      rw [run_append, ih (n / 10) (by omega)]
      change step { t with mode := .csi (n / 10) } _ = _
      rw [step_digit t (n / 10) (Nat.mod_lt n (by decide)), Nat.div_add_mod]

theorem run_forward {n : Nat} (hn : 0 < n) (s : List Byte) (k : Nat) :
    run (line s k) (forward n) = line s (k + n) := by
  rw [forward, run_append, run_append]
  change step (run { line s k with mode := .csi 0 } (decimal n)) 67 = _
  rw [run_decimal]
  simp [step, line, Nat.max_eq_left hn]

theorem run_backward {n : Nat} (hn : 0 < n) (s : List Byte) (k : Nat) :
    run (line s k) (backward n) = line s (k - n) := by
  rw [backward, run_append, run_append]
  change step (run { line s k with mode := .csi 0 } (decimal n)) 68 = _
  rw [run_decimal]
  simp [step, line, Nat.max_eq_left hn]

/-! ## Printing and erasing -/

theorem step_printable {b : Byte} (hb : Printable b) (s : List Byte) (k : Nat) :
    step (line s k) b = ⟨update (line s k).cells k b, k + 1, .ground⟩ := by
  have hesc : b ≠ 27 := by
    rintro rfl
    exact absurd hb (by decide)
  have hback : b ≠ 8 := by
    rintro rfl
    exact absurd hb (by decide)
  simp only [step, line, if_neg hesc, if_neg hback, if_pos hb]

variable {s : List Byte} {k : Nat}

theorem step_text {b : Byte} (hb : Printable b) (hk : k ≤ s.length) :
    step (line s k) b = line (s.take k ++ b :: s.drop (k + 1)) (k + 1) := by
  rw [step_printable hb, line, line]
  congr 1
  funext i
  have hlen : (s.take k).length = k := List.length_take_of_le hk
  rcases Nat.lt_trichotomy i k with hlt | rfl | hgt
  · rw [update_of_ne (by omega), List.getD_append _ _ _ _ (by omega)]
    simp [List.getD_eq_getElem?_getD, hlt]
  · rw [update_self, List.getD_append_right _ _ _ _ (by omega), hlen, Nat.sub_self]
    rfl
  · obtain ⟨j, rfl⟩ := Nat.exists_eq_add_of_lt hgt
    have hidx : k + j + 1 - k = j + 1 := by omega
    rw [update_of_ne (by omega), List.getD_append_right _ _ _ _ (by omega), hlen, hidx,
      List.getD_cons_succ]
    simp [List.getD_eq_getElem?_getD, Nat.add_right_comm]

/-- Text over the line, or on behind its end. -/
theorem run_text {l : List Byte} (hl : ∀ b ∈ l, Printable b) (hk : k ≤ s.length) :
    run (line s k) l = line (s.take k ++ l ++ s.drop (k + l.length)) (k + l.length) := by
  induction l generalizing s k with
  | nil => simp [run]
  | cons b l ih =>
    obtain ⟨hb, hl⟩ := List.forall_mem_cons.1 hl
    have hlen : (s.take k).length = k := List.length_take_of_le hk
    rw [run_cons, step_text hb hk, ih hl (by simp; omega)]
    have htake : (s.take k ++ b :: s.drop (k + 1)).take (k + 1) = s.take k ++ [b] := by
      rw [List.take_append, hlen, Nat.add_sub_cancel_left, List.take_of_length_le (by omega)]
      rfl
    have hdrop : (s.take k ++ b :: s.drop (k + 1)).drop (k + 1 + l.length) =
        s.drop (k + (l.length + 1)) := by
      have hsub : k + 1 + l.length - k = l.length + 1 := by omega
      rw [List.drop_append, hlen, hsub, List.drop_of_length_le (by omega), List.nil_append,
        List.drop_succ_cons, List.drop_drop]
      congr 1
      omega
    rw [htake, hdrop, List.length_cons, List.append_assoc, List.append_assoc]
    congr 1
    · simp
    · omega

theorem run_text_end {l : List Byte} (hl : ∀ b ∈ l, Printable b) (hk : k ≤ s.length)
    (hend : s.length ≤ k + l.length) : run (line s k) l = line (s.take k ++ l) (k + l.length) := by
  rw [run_text hl hk, List.drop_of_length_le hend, List.append_nil]

/-- `\b`, a blank, `\b`. -/
def rub : List Byte := [8, 32, 8]

theorem run_rub (s : List Byte) (b : Byte) :
    run (line (s ++ [b]) (s.length + 1)) rub = line s s.length := by
  have hback : step (line (s ++ [b]) (s.length + 1)) 8 = line (s ++ [b]) s.length := rfl
  have hblank : Printable 32 := by decide
  rw [rub, run_cons, hback, run_cons, step_text hblank (by simp), List.take_left]
  have hrest : (s ++ [b]).drop (s.length + 1) = [] := by simp
  rw [hrest]
  change line (s ++ [32]) s.length = line s s.length
  rw [line, line]
  congr 1
  funext i
  rcases Nat.lt_trichotomy i s.length with hlt | rfl | hgt
  · rw [List.getD_append _ _ _ _ hlt]
  · simp [blank]
  · rw [List.getD_eq_default _ _ (by simp; omega), List.getD_eq_default _ _ (by omega)]

/-- The last `n` bytes of the line are erased from its end. -/
theorem run_erase (n : Nat) (hn : n ≤ s.length) :
    run (line s s.length) (List.replicate n rub).flatten =
      line (s.take (s.length - n)) (s.length - n) := by
  induction n generalizing s with
  | zero => simp [run]
  | succ n ih =>
    obtain ⟨l, b, rfl⟩ := (List.eq_nil_or_concat' s).resolve_left fun h => by simp [h] at hn
    rw [List.length_append, List.length_singleton] at hn
    rw [List.replicate_succ, List.flatten_cons, run_append, List.length_append,
      List.length_singleton, run_rub, ih (by omega)]
    have hlen : l.length + 1 - (n + 1) = l.length - n := by omega
    rw [hlen, List.take_append_of_le_length (by omega)]

end SpringOs.Lib.Terminal
