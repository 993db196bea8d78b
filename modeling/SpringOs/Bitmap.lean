import Mathlib.Logic.Function.Basic
import SpringOs.Lib.Word

/-!
`inc/bitmap.h`: 64-bit bitmaps, their searches, and what the searches find.

* `getBit_setBits`, `getBit_clearBit`: the updates touch the bits they name;
* `bitmapFindNext1_first`: the search for a set bit returns the first one;
* `bitmapFindNext0_scan`: the search for a clear bit only skips set bits, but
  may stop at a word boundary it has not looked at;
* `bitmapFindNext0Area_first`: the area search returns the first clear area
  that ends before the last bit of the bitmap, and always terminates;
* `bitmapFindNext0Area_nonpos`: asked for no bits, or for a negative number of
  them, it returns the first clear bit if that many bits precede it.
-/

namespace SpringOs.Bitmap
open Lib.Word
open Function (update update_self update_of_ne)

variable {wi i bi p size count : Nat}

/-- The words behind a `bitmap_t *`. -/
abbrev BitmapT := Nat → BitVec 64

/-- `BITMAP_SIZE(count)`: bytes of a bitmap of `count` bits, with the rounding
done in `int` and the product in `unsigned long`. -/
def bitmapSize (count : Int) : Nat := u64 ((i32 (count + 63)).tdiv 64 * 8)

/-- Bit `i` of the bitmap. -/
def getBit (b : BitmapT) (i : Nat) : Bool := (b (i / 64)).getLsbD (i % 64)

/-- Indices stay below `2^38`, where the `unsigned int` word index is exact. -/
def bitmapSetBit (b : BitmapT) (index : Nat) : BitmapT :=
  update b (index / 64) (b (index / 64) ||| 1#64 <<< (index % 64))

def bitmapClearBit (b : BitmapT) (index : Nat) : BitmapT :=
  update b (index / 64) (b (index / 64) &&& ~~~(1#64 <<< (index % 64)))

/-- The loop of `bitmap_set_bits` after `len` rounds. -/
def bitmapSetBits (b : BitmapT) (index : Nat) : Nat → BitmapT
  | 0 => b
  | len + 1 => bitmapSetBit (bitmapSetBits b index len) (index + len)

def bitmapInit (b : BitmapT) (size : Nat) (value : BitVec 64) : BitmapT :=
  fun i => if i < size / 8 then value else b i

/-- `while (word & 0x1) { word >>= 1; pos++; }`: how often `pos` moves. Zeros
enter from the top, so 64 rounds always suffice. -/
def skipOnes : Nat → BitVec 64 → Nat
  | 0, _ => 0
  | fuel + 1, word => if word &&& 1#64 = 1#64 then skipOnes fuel (word >>> 1) + 1 else 0

/-- The word loop of `bitmap_find_next_0`; the first argument counts the words
left. -/
def findNext0Loop (b : BitmapT) (wi bi : Nat) : Nat → Nat → Int → Int
  | 0, _, _ => -1
  | n + 1, i, pos =>
    let word := b i
    if word = BitVec.allOnes 64 then findNext0Loop b wi bi n (i + 1) (i32 ((i + 1 : Nat) * 64))
    else if i = wi ∧ ~~~(word >>> bi) = 0#64 then
      findNext0Loop b wi bi n (i + 1) (i32 ((i + 1 : Nat) * 64))
    else i32 (pos + skipOnes 64 (if i = wi then word >>> bi else word))

def bitmapFindNext0 (b : BitmapT) (size start : Nat) : Int :=
  findNext0Loop b (start / 64) (start % 64) (size / 8 - start / 64) (start / 64) (i32 start)

/-- The word loop of `bitmap_find_next_1`; `ctz` is `clz(rbit(word))`. -/
def findNext1Loop (b : BitmapT) (wi bi : Nat) : Nat → Nat → Int → Int
  | 0, _, _ => -1
  | n + 1, i, pos =>
    let word := b i
    if word = 0#64 then findNext1Loop b wi bi n (i + 1) (i32 ((i + 1 : Nat) * 64))
    else if i = wi ∧ word >>> bi = 0#64 then
      findNext1Loop b wi bi n (i + 1) (i32 ((i + 1 : Nat) * 64))
    else i32 (pos + (if i = wi then word >>> bi else word).ctz.toNat)

def bitmapFindNext1 (b : BitmapT) (size start : Nat) : Int :=
  findNext1Loop b (start / 64) (start % 64) (size / 8 - start / 64) (start / 64) (i32 start)

/-- The `again:` loop of `bitmap_find_next_0_area`; `none` when the fuel runs
out. -/
def findAreaLoop (b : BitmapT) (size : Nat) (count : Int) : Nat → Nat → Option Int
  | 0, _ => none
  | fuel + 1, start =>
    let pos := bitmapFindNext0 b size start
    if pos = -1 then some (-1)
    else
      let stop := u64 (i32 (pos + count))
      if stop ≥ size / 8 * 64 then some (-1)
      else
        let i := u64 (bitmapFindNext1 b size start)
        if i < stop then findAreaLoop b size count fuel (i + 1) else some pos

/-- Each round of `again:` starts later than the one before, so one round per
bit and a last one are enough (`findAreaLoop_first`). -/
def bitmapFindNext0Area (b : BitmapT) (size start : Nat) (count : Int) : Int :=
  (findAreaLoop b size count (size / 8 * 64 + 1) start).getD (-1)

/-! ## Updates -/

theorem getBit_setBit (b : BitmapT) (index i : Nat) :
    getBit (bitmapSetBit b index) i = (decide (i = index) || getBit b i) := by
  unfold getBit bitmapSetBit
  by_cases hw : i / 64 = index / 64
  · have hlt : i % 64 < 64 := Nat.mod_lt _ (by decide)
    rw [hw, update_self]
    by_cases he : i = index
    · subst he
      simp [hlt]
    · by_cases hlo : i % 64 < index % 64
      · simp [BitVec.getLsbD_one, he, hlo]
      · simp [BitVec.getLsbD_one, he, hlo, show i % 64 - index % 64 ≠ 0 by omega]
  · have he : i ≠ index := fun h => hw (by rw [h])
    rw [update_of_ne hw]
    simp [he]

theorem getBit_clearBit (b : BitmapT) (index i : Nat) :
    getBit (bitmapClearBit b index) i = (decide (i ≠ index) && getBit b i) := by
  unfold getBit bitmapClearBit
  by_cases hw : i / 64 = index / 64
  · have hlt : i % 64 < 64 := Nat.mod_lt _ (by decide)
    rw [hw, update_self]
    by_cases he : i = index
    · subst he
      simp
    · by_cases hlo : i % 64 < index % 64
      · simp [he, hlo, hlt]
      · simp [he, hlo, hlt, show i % 64 - index % 64 ≠ 0 by omega]
  · have he : i ≠ index := fun h => hw (by rw [h])
    rw [update_of_ne hw]
    simp [he]

theorem getBit_setBits (b : BitmapT) (index len i : Nat) :
    getBit (bitmapSetBits b index len) i =
      (decide (index ≤ i ∧ i < index + len) || getBit b i) := by
  induction len with
  | zero => simp [bitmapSetBits]
  | succ len ih =>
    rw [bitmapSetBits, getBit_setBit, ih, ← Bool.or_assoc, ← Bool.decide_or]
    congr 2
    rw [eq_iff_iff]
    omega

/-! ## Searching one word -/

theorem skipOnes_le (fuel : Nat) (w : BitVec 64) : skipOnes fuel w ≤ fuel := by
  induction fuel generalizing w with
  | zero => simp [skipOnes]
  | succ fuel ih =>
    unfold skipOnes
    split
    · have := ih (w >>> 1)
      omega
    · omega

theorem lsb_eq_one_iff (w : BitVec 64) : w &&& 1#64 = 1#64 ↔ w.getLsbD 0 = true := by
  constructor
  · intro h
    have := congrArg (BitVec.getLsbD · 0) h
    simpa using this
  · intro h
    apply BitVec.eq_of_getLsbD_eq
    intro i hi
    by_cases h0 : i = 0
    · subst h0
      simp [h]
    · simp [BitVec.getLsbD_one, h0]

theorem skipOnes_set (fuel : Nat) (w : BitVec 64) :
    ∀ j < skipOnes fuel w, w.getLsbD j = true := by
  induction fuel generalizing w with
  | zero => simp [skipOnes]
  | succ fuel ih =>
    intro j hj
    unfold skipOnes at hj
    split at hj
    · rename_i h
      cases j with
      | zero => exact (lsb_eq_one_iff w).mp h
      | succ j =>
        have := ih (w >>> 1) j (by omega)
        simpa [Nat.add_comm] using this
    · omega

theorem skipOnes_clear (fuel : Nat) (w : BitVec 64) (h : skipOnes fuel w < fuel) :
    w.getLsbD (skipOnes fuel w) = false := by
  induction fuel generalizing w with
  | zero => omega
  | succ fuel ih =>
    unfold skipOnes at h ⊢
    split
    · rename_i hb
      rw [if_pos hb] at h
      have := ih (w >>> 1) (by omega)
      simpa [Nat.add_comm] using this
    · rename_i hb
      have := mt (lsb_eq_one_iff w).mpr hb
      simpa using this

/-! ## Searching words

A scan enters word `i` at bit `bi` when it is the first word `wi`, else at bit
`0`: `entry` is that position and `rest` the part of the word it still sees. -/

def entry (wi bi i : Nat) : Nat := if i = wi then i * 64 + bi else i * 64

def rest (b : BitmapT) (wi bi i : Nat) : BitVec 64 := if i = wi then b i >>> bi else b i

theorem entry_next (bi : Nat) (h : wi ≤ i) : entry wi bi (i + 1) = (i + 1) * 64 := by
  unfold entry
  rw [if_neg (by omega)]

theorem entry_start (start : Nat) : entry (start / 64) (start % 64) (start / 64) = start := by
  unfold entry
  rw [if_pos rfl]
  omega

theorem entry_lt (wi : Nat) (hbi : bi < 64) (i : Nat) :
    i * 64 ≤ entry wi bi i ∧ entry wi bi i < (i + 1) * 64 := by
  unfold entry
  split <;> omega

theorem getBit_entry (b : BitmapT) (wi bi i j : Nat) (h : entry wi bi i + j < (i + 1) * 64) :
    getBit b (entry wi bi i + j) = (rest b wi bi i).getLsbD j := by
  unfold getBit rest
  unfold entry at *
  split
  · rename_i hi
    rw [if_pos hi] at h
    rw [show (i * 64 + bi + j) / 64 = i by omega, show (i * 64 + bi + j) % 64 = bi + j by omega]
    simp
  · rename_i hi
    rw [if_neg hi] at h
    rw [show (i * 64 + j) / 64 = i by omega, show (i * 64 + j) % 64 = j by omega]

theorem getBit_of_entry_le (b : BitmapT) (hlo : entry wi bi i ≤ p) (hhi : p < (i + 1) * 64) :
    getBit b p = (rest b wi bi i).getLsbD (p - entry wi bi i) := by
  have h := getBit_entry b wi bi i (p - entry wi bi i) (by omega)
  rwa [show entry wi bi i + (p - entry wi bi i) = p by omega] at h

theorem rest_high (b : BitmapT) {j : Nat} (hj : (i + 1) * 64 ≤ entry wi bi i + j) :
    (rest b wi bi i).getLsbD j = false := by
  unfold rest
  unfold entry at hj
  split
  · rename_i hi
    rw [if_pos hi] at hj
    rw [BitVec.getLsbD_ushiftRight]
    exact BitVec.getLsbD_of_ge _ _ (by omega)
  · rename_i hi
    rw [if_neg hi] at hj
    exact BitVec.getLsbD_of_ge _ _ (by omega)

/-- `r` is the first position from `lo` below `hi` with `P`, or `-1`. -/
def FirstIn (P : Nat → Prop) (lo hi : Nat) (r : Int) : Prop :=
  (r = -1 ∧ ∀ p, lo ≤ p → p < hi → ¬ P p) ∨
  ∃ p : Nat, r = p ∧ lo ≤ p ∧ p < hi ∧ P p ∧ ∀ q, lo ≤ q → q < p → ¬ P q

theorem FirstIn.extend {P : Nat → Prop} {lo mid hi : Nat} {r : Int} (h : FirstIn P mid hi r)
    (hle : lo ≤ mid) (hskip : ∀ p, lo ≤ p → p < mid → ¬ P p) : FirstIn P lo hi r := by
  rcases h with ⟨hr, hnone⟩ | ⟨p, hr, hlo, hhi, hp, hmin⟩
  · refine .inl ⟨hr, fun p hp hlt => ?_⟩
    rcases Nat.lt_or_ge p mid with h | h
    · exact hskip p hp h
    · exact hnone p h hlt
  · refine .inr ⟨p, hr, by omega, hhi, hp, fun q hq hlt => ?_⟩
    rcases Nat.lt_or_ge q mid with h | h
    · exact hskip q hq h
    · exact hmin q h hlt

theorem findNext1Loop_succ (b : BitmapT) (wi bi n i : Nat) (pos : Int) :
    findNext1Loop b wi bi (n + 1) i pos =
      if rest b wi bi i = 0#64 then findNext1Loop b wi bi n (i + 1) (i32 ((i + 1 : Nat) * 64))
      else i32 (pos + (rest b wi bi i).ctz.toNat) := by
  simp only [findNext1Loop]
  by_cases hi : i = wi
  · subst hi
    have hr : rest b i bi i = b i >>> bi := if_pos rfl
    rw [hr]
    by_cases h0 : b i = 0#64
    · simp [h0]
    · simp [h0]
  · have hr : rest b wi bi i = b i := if_neg hi
    rw [hr]
    simp [hi]

theorem findNext1Loop_first (b : BitmapT) (wi bi : Nat) (hbi : bi < 64) (n i : Nat)
    (hn : (i + n) * 64 < 2147483648) (hi : wi ≤ i) :
    FirstIn (fun p => getBit b p = true) (entry wi bi i) ((i + n) * 64)
      (findNext1Loop b wi bi n i (entry wi bi i)) := by
  induction n generalizing i with
  | zero =>
    refine .inl ⟨rfl, ?_⟩
    intro p hlo hhi
    have := entry_lt wi hbi i
    omega
  | succ n ih =>
    have he := entry_lt wi hbi i
    rw [findNext1Loop_succ]
    split
    · -- nothing in this word: the scan goes on at the next one
      rename_i hz
      have hclear : ∀ p, entry wi bi i ≤ p → p < (i + 1) * 64 → ¬ getBit b p = true := by
        intro p hlo hhi
        rw [getBit_of_entry_le b hlo hhi, hz]
        simp
      have hih := ih (i + 1) (by omega) (by omega)
      rw [entry_next bi hi] at hih
      rw [i32_of_lt (by omega) (by omega)]
      rw [show i + 1 + n = i + (n + 1) by omega] at hih
      push_cast at hih ⊢
      exact hih.extend (Nat.le_of_lt he.2) hclear
    · rename_i hz
      have hbit := BitVec.getLsbD_true_ctz_of_ne_zero hz
      have hin : entry wi bi i + (rest b wi bi i).ctz.toNat < (i + 1) * 64 := by
        by_contra h
        rw [rest_high b (by omega)] at hbit
        exact Bool.false_ne_true hbit
      refine .inr ⟨entry wi bi i + (rest b wi bi i).ctz.toNat, ?_, by omega, by omega, ?_, ?_⟩
      · rw [i32_of_lt (by omega) (by omega)]
        push_cast
        rfl
      · change getBit b _ = true
        rw [getBit_entry b _ _ _ _ hin, hbit]
      · intro q hlo hq
        change ¬ getBit b q = true
        rw [getBit_of_entry_le b hlo (by omega),
          BitVec.getLsbD_false_of_lt_ctz (by omega)]
        simp

/-- **The search for a set bit** returns the first one from `start`. -/
theorem bitmapFindNext1_first (b : BitmapT) (size start : Nat)
    (hsize : size / 8 * 64 < 2147483648) (hstart : start < 2147483648) :
    FirstIn (fun p => getBit b p = true) start (size / 8 * 64) (bitmapFindNext1 b size start) := by
  have hent := entry_start start
  unfold bitmapFindNext1
  rw [i32_of_lt (by omega) (by omega)]
  by_cases h : start / 64 ≤ size / 8
  · have := findNext1Loop_first b (start / 64) (start % 64) (by omega)
      (size / 8 - start / 64) (start / 64) (by omega) (by omega)
    rw [hent, show start / 64 + (size / 8 - start / 64) = size / 8 by omega] at this
    exact this
  · rw [show size / 8 - start / 64 = 0 by omega]
    exact .inl ⟨rfl, fun p _ _ => by omega⟩

/-- The word is passed over only when every bit the scan sees in it is set. -/
theorem findNext0Loop_succ (b : BitmapT) (wi bi n i : Nat) (pos : Int) :
    findNext0Loop b wi bi (n + 1) i pos =
      if b i = BitVec.allOnes 64 ∨ rest b wi bi i = BitVec.allOnes 64 then
        findNext0Loop b wi bi n (i + 1) (i32 ((i + 1 : Nat) * 64))
      else i32 (pos + skipOnes 64 (rest b wi bi i)) := by
  have hnot : ∀ w : BitVec 64, ~~~w = 0#64 ↔ w = BitVec.allOnes 64 := by
    intro w
    rw [← BitVec.not_allOnes, BitVec.not_inj]
  simp only [findNext0Loop, hnot]
  by_cases hi : i = wi
  · subst hi
    have hr : rest b i bi i = b i >>> bi := if_pos rfl
    rw [hr]
    by_cases h0 : b i = BitVec.allOnes 64
    · simp only [h0, true_or, if_true]
    · simp only [h0, true_and, false_or, if_false, if_true]
  · have hr : rest b wi bi i = b i := if_neg hi
    rw [hr]
    simp [hi]

/-- Where a scan for a clear bit ends: it skips set bits only, and the bit it
stops at is clear unless it ran off the end of a word it entered halfway. -/
def ScanEnd (b : BitmapT) (start hi : Nat) (r : Int) : Prop :=
  (r = -1 ∧ ∀ p, start ≤ p → p < hi → getBit b p = true) ∨
  ∃ p : Nat, r = p ∧ start ≤ p ∧ p ≤ hi ∧ (∀ q, start ≤ q → q < p → getBit b q = true) ∧
    (getBit b p = false ∨ start % 64 ≠ 0 ∧ p = (start / 64 + 1) * 64)

variable {b : BitmapT}

theorem getLsbD_of_full (h : b i = BitVec.allOnes 64 ∨ rest b wi bi i = BitVec.allOnes 64)
    (hbi : bi < 64) (hlo : entry wi bi i ≤ p) (hhi : p < (i + 1) * 64) : getBit b p = true := by
  have he := entry_lt wi hbi i
  rcases h with h | h
  · unfold getBit
    rw [show p / 64 = i by omega, h, BitVec.getLsbD_allOnes]
    exact decide_eq_true (by omega)
  · rw [getBit_of_entry_le b hlo hhi, h, BitVec.getLsbD_allOnes]
    exact decide_eq_true (by omega)

/-- A word that is not full, of which the scan saw set bits only, was entered halfway. -/
theorem entered_halfway (hfull : rest b wi bi i ≠ BitVec.allOnes 64)
    (hend : (i + 1) * 64 ≤ entry wi bi i + skipOnes 64 (rest b wi bi i)) : i = wi ∧ bi ≠ 0 := by
  by_contra hc
  apply hfull
  apply BitVec.eq_of_getLsbD_eq
  intro j hj
  have hin : entry wi bi i + j < (i + 1) * 64 := by
    unfold entry
    split <;> omega
  rw [BitVec.getLsbD_allOnes, skipOnes_set 64 _ j (by omega)]
  exact (decide_eq_true hj).symm

theorem findNext0Loop_scan (b : BitmapT) (wi bi : Nat) (hbi : bi < 64) (n i : Nat)
    (hn : (i + n) * 64 < 2147483648) (hi : wi ≤ i) :
    (findNext0Loop b wi bi n i (entry wi bi i) = -1 ∧
      ∀ p, entry wi bi i ≤ p → p < (i + n) * 64 → getBit b p = true) ∨
    ∃ p : Nat, findNext0Loop b wi bi n i (entry wi bi i) = p ∧ entry wi bi i ≤ p ∧
      p ≤ (i + n) * 64 ∧ (∀ q, entry wi bi i ≤ q → q < p → getBit b q = true) ∧
      (p < (i + n) * 64 ∧ getBit b p = false ∨ i = wi ∧ bi ≠ 0 ∧ p = (wi + 1) * 64) := by
  induction n generalizing i with
  | zero =>
    refine .inl ⟨rfl, ?_⟩
    intro p hlo hhi
    have := entry_lt wi hbi i
    omega
  | succ n ih =>
    have he := entry_lt wi hbi i
    rw [findNext0Loop_succ]
    split
    · rename_i hfull
      have hset : ∀ p, entry wi bi i ≤ p → p < (i + 1) * 64 → getBit b p = true := by
        intro p hlo hhi
        exact getLsbD_of_full hfull hbi hlo hhi
      have hih := ih (i + 1) (by omega) (by omega)
      rw [entry_next bi hi] at hih
      rw [i32_of_lt (by omega) (by omega)]
      rw [show i + 1 + n = i + (n + 1) by omega] at hih
      push_cast at hih ⊢
      rcases hih with ⟨hr, hall⟩ | ⟨p, hr, hlo, hhi, hall, hp⟩
      · refine .inl ⟨hr, ?_⟩
        intro p hlo hhi
        by_cases h : p < (i + 1) * 64
        · exact hset p hlo h
        · exact hall p (by omega) hhi
      · refine .inr ⟨p, hr, by omega, hhi, ?_, ?_⟩
        · intro q hlo' hq
          by_cases h : q < (i + 1) * 64
          · exact hset q hlo' h
          · exact hall q (by omega) hq
        · rcases hp with hp | ⟨hw, _⟩
          · exact .inl hp
          · omega
    · rename_i hfull
      have hle := skipOnes_le 64 (rest b wi bi i)
      have hin : entry wi bi i + skipOnes 64 (rest b wi bi i) ≤ (i + 1) * 64 := by
        by_contra h
        have hset := skipOnes_set 64 (rest b wi bi i) ((i + 1) * 64 - entry wi bi i) (by omega)
        rw [rest_high b (by omega)] at hset
        exact Bool.false_ne_true hset
      refine .inr ⟨entry wi bi i + skipOnes 64 (rest b wi bi i), ?_, by omega, by omega, ?_, ?_⟩
      · rw [i32_of_lt (by omega) (by omega)]
        push_cast
        rfl
      · intro q hlo hq
        rw [getBit_of_entry_le b hlo (by omega)]
        exact skipOnes_set 64 _ _ (by omega)
      · by_cases hend : entry wi bi i + skipOnes 64 (rest b wi bi i) < (i + 1) * 64
        · refine .inl ⟨by omega, ?_⟩
          rw [getBit_entry b _ _ _ _ hend]
          exact skipOnes_clear 64 _ (by omega)
        · obtain ⟨hw, hne⟩ := entered_halfway (fun h => hfull (.inr h)) (Nat.le_of_not_lt hend)
          exact .inr ⟨hw, hne, by omega⟩

theorem bitmapFindNext0_scan (b : BitmapT) (size start : Nat)
    (hsize : size / 8 * 64 < 2147483648) (hstart : start < 2147483648) :
    ScanEnd b start (size / 8 * 64) (bitmapFindNext0 b size start) := by
  have hent := entry_start start
  unfold bitmapFindNext0 ScanEnd
  rw [i32_of_lt (by omega) (by omega)]
  by_cases h : start / 64 ≤ size / 8
  · have hl := findNext0Loop_scan b (start / 64) (start % 64) (by omega)
      (size / 8 - start / 64) (start / 64) (by omega) (by omega)
    rw [hent, show start / 64 + (size / 8 - start / 64) = size / 8 by omega] at hl
    rcases hl with hl | ⟨p, hr, hlo, hhi, hall, hp⟩
    · exact .inl hl
    · refine .inr ⟨p, hr, hlo, hhi, hall, ?_⟩
      rcases hp with ⟨_, hp⟩ | ⟨_, hne, hp⟩
      · exact .inl hp
      · exact .inr ⟨hne, hp⟩
  · rw [show size / 8 - start / 64 = 0 by omega]
    exact .inl ⟨rfl, fun p _ _ => by omega⟩

/-! ## Searching for an area -/

/-- The `count` bits from `p` are clear. -/
def AreaClear (b : BitmapT) (p count : Nat) : Prop :=
  ∀ q, p ≤ q → q < p + count → getBit b q = false

/-- What `bitmap_find_next_0_area` accepts: a clear area that ends strictly
before the end of the bitmap. -/
def FreeArea (b : BitmapT) (size count p : Nat) : Prop :=
  AreaClear b p count ∧ p + count < size / 8 * 64

theorem u64_neg_one : u64 (-1) = 18446744073709551615 := by decide +kernel

theorem not_freeArea_of_bit (hbit : getBit b i = true) (hlo : p ≤ i) (hhi : i < p + count) :
    ¬ FreeArea b size count p := by
  rintro ⟨hclear, -⟩
  rw [hclear i hlo hhi] at hbit
  exact Bool.false_ne_true hbit

variable {start pos c : Nat} {b' : BitmapT}

/-- One area starts no earlier than where the scan stops, so it runs past any
set bit the restart jumps over. -/
theorem not_freeArea_of_set (hset : ∀ q, start ≤ q → q < pos → getBit b q = true)
    (hcount : 1 ≤ count) (hi : getBit b i = true) (hend : i < pos + count) (hlo : start ≤ p)
    (hp : p ≤ i) : ¬ FreeArea b size count p := by
  by_cases h : p < pos
  · exact not_freeArea_of_bit (hset p hlo h) le_rfl (by omega)
  · exact not_freeArea_of_bit hi hp (by omega)

theorem findAreaLoop_first (b : BitmapT) (size count : Nat) (hcount : 1 ≤ count)
    (hsize : size / 8 * 64 + count < 2147483648) (fuel start : Nat) (hstart : start < 2147483648)
    (hfuel : 0 < fuel ∧ size / 8 * 64 < start + fuel) :
    ∃ r, findAreaLoop b size count fuel start = some r ∧
      FirstIn (FreeArea b size count) start (size / 8 * 64) r := by
  induction fuel generalizing start with
  | zero => omega
  | succ fuel ih =>
    simp only [findAreaLoop]
    rcases bitmapFindNext0_scan b size start (by omega) hstart with
      ⟨h0, hall⟩ | ⟨pos, h0, hlo, hhi, hset, hpos⟩
    · exact ⟨-1, by rw [if_pos h0], .inl ⟨rfl, fun p hp hlt =>
        not_freeArea_of_bit (hall p hp hlt) le_rfl (by omega)⟩⟩
    · rw [h0, if_neg (by omega), i32_of_lt (by omega) (by omega)]
      have hstop : u64 ((pos : Int) + count) = pos + count := by unfold u64; omega
      rw [hstop]
      split
      · -- whatever area there is starts at `pos` or later, hence ends too late
        rename_i hlate
        refine ⟨-1, rfl, .inl ⟨rfl, ?_⟩⟩
        intro p hp hlt harea
        by_cases h : p < pos
        · exact not_freeArea_of_bit (hset p hp h) le_rfl (by omega) harea
        · have hend := harea.2
          omega
      · rename_i hlate
        -- a position behind `start` that is set would be found before `stop`
        have hfound : (∀ q, start ≤ q → q < pos + count → getBit b q = false) →
            FirstIn (FreeArea b size count) start (size / 8 * 64) pos := by
          intro hclear
          have hps : pos = start := by
            by_contra hne
            have := hclear start (le_refl _) (by omega)
            rw [hset start (le_refl _) (by omega)] at this
            exact Bool.false_ne_true this.symm
          subst hps
          exact .inr ⟨pos, rfl, le_refl _, by omega, ⟨hclear, by omega⟩, by omega⟩
        rcases bitmapFindNext1_first b size start (by omega) hstart with
          ⟨h1, hnone⟩ | ⟨i, h1, hilo, hihi, hbit, hmin⟩
        · rw [h1, u64_neg_one, if_neg (by omega)]
          refine ⟨pos, rfl, hfound ?_⟩
          intro q hq hlt
          simpa using hnone q hq (by omega)
        · have hu : u64 (i : Int) = i := by unfold u64; omega
          rw [h1, hu]
          split
          · rename_i hi
            obtain ⟨r, hr, hfirst⟩ := ih (i + 1) (by omega) (by omega)
            have hskip : ∀ p, start ≤ p → p < i + 1 → ¬ FreeArea b size count p :=
              fun p hp hlt => not_freeArea_of_set hset hcount hbit hi hp (by omega)
            exact ⟨r, hr, hfirst.extend (by omega) hskip⟩
          · rename_i hi
            refine ⟨pos, rfl, hfound ?_⟩
            intro q hq hlt
            simpa using hmin q hq (by omega)

/-- **The area search** terminates and returns the first free area. -/
theorem bitmapFindNext0Area_first (b : BitmapT) (size count : Nat) (hcount : 1 ≤ count)
    (hsize : size / 8 * 64 + count < 2147483648) :
    FirstIn (FreeArea b size count) 0 (size / 8 * 64) (bitmapFindNext0Area b size 0 count) := by
  obtain ⟨r, hr, hfirst⟩ := findAreaLoop_first b size count hcount hsize (size / 8 * 64 + 1) 0
    (by decide) (by omega)
  unfold bitmapFindNext0Area
  rw [hr]
  exact hfirst

/-! ## Areas of no bits -/

theorem allOnes_of_set (h : ∀ q, i * 64 ≤ q → q < (i + 1) * 64 → getBit b q = true) :
    b i = BitVec.allOnes 64 := by
  apply BitVec.eq_of_getLsbD_eq
  intro j hj
  have hbit := h (i * 64 + j) (by omega) (by omega)
  unfold getBit at hbit
  rw [show (i * 64 + j) / 64 = i by omega, show (i * 64 + j) % 64 = j by omega] at hbit
  rw [hbit, BitVec.getLsbD_allOnes]
  exact (decide_eq_true hj).symm

/-- Full words are skipped wherever the scan starts in them, so it reaches the first clear
bit of the bitmap. -/
theorem findNext0Loop_eq (hset : ∀ q < p, getBit b q = true) (hclear : getBit b p = false)
    (wi : Nat) (hbi : bi < 64) (n i : Nat) (hn : (i + n) * 64 < 2147483648) (hi : wi ≤ i)
    (hlo : entry wi bi i ≤ p) (hhi : p < (i + n) * 64) :
    findNext0Loop b wi bi n i (entry wi bi i) = p := by
  have hent := entry_lt wi hbi i
  induction n generalizing i with
  | zero => omega
  | succ n ih =>
    by_cases hnext : (i + 1) * 64 ≤ p
    · have hfull := allOnes_of_set (b := b) (i := i) fun q _ hq => hset q (by omega)
      have hent' := entry_next bi hi
      rw [findNext0Loop_succ, if_pos (.inl hfull), i32_of_lt (by omega) (by omega),
        show ((i + 1 : Nat) : Int) * 64 = (((i + 1) * 64 : Nat) : Int) by omega, ← hent']
      exact ih (i + 1) (by omega) (by omega) (by omega) (by omega) (by omega)
    · rcases findNext0Loop_scan b wi bi hbi (n + 1) i hn hi with
        ⟨_, hall⟩ | ⟨r, hr, hrlo, _, hrset, hstop⟩
      · rw [hall p hlo hhi] at hclear
        cases hclear
      · have hle : r ≤ p := by
          by_contra hlt
          rw [hrset p hlo (by omega)] at hclear
          cases hclear
        rcases hstop with ⟨_, hstop⟩ | ⟨hiw, _, hbound⟩
        · have hge : ¬ r < p := fun hlt => by
            rw [hset r hlt] at hstop
            cases hstop
          rw [hr, show r = p by omega]
        · omega

theorem bitmapFindNext0_eq (hset : ∀ q < p, getBit b q = true) (hclear : getBit b p = false)
    (hsize : size / 8 * 64 < 2147483648) (hp : p < size / 8 * 64) (hstart : start ≤ p) :
    bitmapFindNext0 b size start = p := by
  have hent := entry_start start
  have hbi : start % 64 < 64 := by omega
  have heq := findNext0Loop_eq hset hclear (start / 64) hbi
    (size / 8 - start / 64) (start / 64) (by omega) (le_refl _) (by omega) (by omega)
  rw [hent] at heq
  unfold bitmapFindNext0
  rw [i32_of_lt (by omega) (by omega)]
  exact heq

theorem findNext0Loop_none (wi bi n i : Nat) (pos : Int)
    (hset : ∀ q < (i + n) * 64, getBit b q = true) : findNext0Loop b wi bi n i pos = -1 := by
  induction n generalizing i pos with
  | zero => rfl
  | succ n ih =>
    have hfull := allOnes_of_set (b := b) (i := i) fun q _ hq => hset q (by omega)
    rw [findNext0Loop_succ, if_pos (.inl hfull)]
    exact ih (i + 1) _ (fun q hq => hset q (by omega))

/-- The restarts move up to `p - c`, from where no set bit stands before the end of the
area, which lies before its start. -/
theorem findAreaLoop_nonpos (hset : ∀ q < p, getBit b q = true) (hclear : getBit b p = false)
    (hsize : size / 8 * 64 < 2147483648) (hp : p < size / 8 * 64) (hc : c ≤ p) (fuel start : Nat)
    (hstart : start ≤ p - c) (hfuel : p - c < start + fuel) :
    findAreaLoop b size (-c) fuel start = some (p : Int) := by
  induction fuel generalizing start with
  | zero => omega
  | succ fuel ih =>
    have hstop : u64 (i32 ((p : Int) + -(c : Int))) = p - c := by
      rw [i32_of_lt (by omega) (by omega)]
      unfold u64
      omega
    simp only [findAreaLoop, bitmapFindNext0_eq hset hclear hsize hp (show start ≤ p by omega),
      hstop]
    rw [if_neg (by omega), if_neg (by omega)]
    rcases bitmapFindNext1_first b size start hsize (by omega) with
      ⟨hnone, _⟩ | ⟨i, hi, hilo, hihi, _, _⟩
    · rw [hnone, u64_neg_one, if_neg (by omega)]
    · have hu : u64 (i : Int) = i := by
        unfold u64
        omega
      rw [hi, hu]
      split
      · exact ih (i + 1) (by omega) (by omega)
      · rfl

/-- **An area of `-c` bits**: the first clear bit of the bitmap, if `c` bits precede it. -/
theorem bitmapFindNext0Area_nonpos (hset : ∀ q < p, getBit b q = true) (hclear : getBit b p = false)
    (hsize : size / 8 * 64 < 2147483648) (hp : p < size / 8 * 64) (hc : c ≤ 2147483648) :
    bitmapFindNext0Area b size 0 (-c) = if c ≤ p then (p : Int) else -1 := by
  unfold bitmapFindNext0Area
  split
  · rename_i hle
    rw [findAreaLoop_nonpos hset hclear hsize hp hle _ 0 (Nat.zero_le _) (by omega)]
    rfl
  · rename_i hgt
    have hstop : u64 (i32 ((p : Int) + -(c : Int))) ≥ size / 8 * 64 := by
      rw [i32_of_lt (by omega) (by omega)]
      unfold u64
      omega
    simp only [findAreaLoop, bitmapFindNext0_eq hset hclear hsize hp (Nat.zero_le p)]
    rw [if_neg (by omega), if_pos hstop]
    rfl

theorem bitmapFindNext0Area_full (hset : ∀ q < size / 8 * 64, getBit b q = true) (count : Int) :
    bitmapFindNext0Area b size 0 count = -1 := by
  have hnone : bitmapFindNext0 b size 0 = -1 :=
    findNext0Loop_none _ _ _ _ _ fun q hq => hset q (by omega)
  simp only [bitmapFindNext0Area, findAreaLoop, hnone, if_true]
  rfl

/-! ## Counting set bits -/

/-- How many of the first `n` bits are set. -/
def setCount (b : BitmapT) : Nat → Nat
  | 0 => 0
  | n + 1 => setCount b n + (getBit b n).toNat

theorem setCount_eq_zero {n : Nat} (h : ∀ i < n, getBit b i = false) : setCount b n = 0 := by
  induction n with
  | zero => rfl
  | succ n ih => rw [setCount, ih (fun i hi => h i (by omega)), h n (by omega)]; rfl

theorem setCount_flip (hb : getBit b i = false) (hb' : getBit b' i = true)
    (hrest : ∀ j, j ≠ i → getBit b' j = getBit b j) (n : Nat) :
    setCount b' n = setCount b n + if i < n then 1 else 0 := by
  induction n with
  | zero => rfl
  | succ n ih =>
    rw [setCount, setCount, ih]
    by_cases he : n = i
    · subst he
      simp [hb, hb']
    · rw [hrest n he]
      by_cases hlt : i < n
      · rw [if_pos hlt, if_pos (by omega)]
        omega
      · rw [if_neg hlt, if_neg (by omega)]
        omega

theorem setCount_clearBit (h : getBit b i = true) (n : Nat) :
    setCount b n = setCount (bitmapClearBit b i) n + if i < n then 1 else 0 := by
  refine setCount_flip ?_ h ?_ n
  · simp [getBit_clearBit]
  · intro j hj
    simp [getBit_clearBit, hj]

theorem setCount_setBits (h : AreaClear b pos count) (n : Nat) :
    setCount (bitmapSetBits b pos count) n = setCount b n + (min n (pos + count) - min n pos) := by
  induction count with
  | zero => simp [bitmapSetBits]
  | succ count ih =>
    have hstep : setCount (bitmapSetBits b pos (count + 1)) n =
        setCount (bitmapSetBits b pos count) n + if pos + count < n then 1 else 0 := by
      refine setCount_flip ?_ ?_ ?_ n
      · simp [getBit_setBits, h (pos + count) (by omega) (by omega)]
      · simp [bitmapSetBits, getBit_setBit]
      · intro j hj
        simp [bitmapSetBits, getBit_setBit, hj]
    rw [hstep, ih (fun q hlo hhi => h q hlo (by omega))]
    by_cases hlt : pos + count < n
    · rw [if_pos hlt]
      omega
    · rw [if_neg hlt]
      omega

theorem bitmap_ext (h : ∀ i, getBit b i = getBit b' i) : b = b' := by
  funext w
  refine BitVec.eq_of_getLsbD_eq ?_
  intro i hi
  have hbit := h (64 * w + i)
  unfold getBit at hbit
  rwa [show (64 * w + i) / 64 = w by omega, show (64 * w + i) % 64 = i by omega] at hbit

theorem getBit_init (h : i < size / 8 * 64) : getBit (bitmapInit b size 0#64) i = false := by
  unfold getBit bitmapInit
  rw [if_pos (by omega)]
  exact BitVec.getLsbD_zero

end SpringOs.Bitmap
