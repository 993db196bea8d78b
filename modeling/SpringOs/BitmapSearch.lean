import SpringOs.Bitmap

/-!
When the searches of `inc/bitmap.h` return the first position there is.

* `bitmapFindNext0_runOff`: a first word whose seen bits are all set, but which is not full, ends
  the search at the next word boundary, whatever is there;
* **`bitmap_find_next_0_iff`**: so the search for a clear bit is right unless that boundary is
  the end of the bitmap or a set bit;
* **`bitmap_find_next_0_area_iff`**: the search for an area is right unless the first area is
  the one at the very end of the bitmap.
-/

namespace SpringOs.Bitmap
open Lib.Word

variable {b : BitmapT} {start size : Nat}

/-! ## A clear bit -/

/-- The bits of the first word from `start` on are set, and one before `start` is clear. -/
structure RunOff (b : BitmapT) (start : Nat) : Prop where
  seen : ∀ q, start ≤ q → q < (start / 64 + 1) * 64 → getBit b q = true
  notFull : b (start / 64) ≠ BitVec.allOnes 64

theorem RunOff.halfway (h : RunOff b start) : start % 64 ≠ 0 := by
  intro hzero
  exact h.notFull (allOnes_of_set fun q hlo hhi => h.seen q (by omega) hhi)

/-- The shift brings zeros in at the top, so the rest of the word looks as if it had a clear
bit behind its end. -/
theorem skipOnes_runOff (h : RunOff b start) :
    skipOnes 64 (b (start / 64) >>> (start % 64)) = 64 - start % 64 := by
  have hbit : ∀ j, (b (start / 64) >>> (start % 64)).getLsbD j =
      (b (start / 64)).getLsbD (start % 64 + j) := fun j => BitVec.getLsbD_ushiftRight ..
  have hle := skipOnes_le 64 (b (start / 64) >>> (start % 64))
  apply Nat.le_antisymm
  · apply Nat.le_of_not_lt
    intro hgt
    have hset := skipOnes_set 64 _ _ hgt
    rw [hbit, BitVec.getLsbD_of_ge _ _ (by omega)] at hset
    cases hset
  · apply Nat.le_of_not_lt
    intro hlt
    have hclear := skipOnes_clear 64 (b (start / 64) >>> (start % 64)) (by omega)
    have hset := h.seen (start + skipOnes 64 (b (start / 64) >>> (start % 64))) (by omega)
      (by omega)
    unfold getBit at hset
    rw [hbit] at hclear
    rw [show (start + skipOnes 64 (b (start / 64) >>> (start % 64))) / 64 = start / 64 by omega,
      show (start + skipOnes 64 (b (start / 64) >>> (start % 64))) % 64 =
        start % 64 + skipOnes 64 (b (start / 64) >>> (start % 64)) by omega, hclear] at hset
    cases hset

theorem bitmapFindNext0_runOff (h : RunOff b start) (hsize : size / 8 * 64 < 2 ^ 31)
    (hstart : start < size / 8 * 64) :
    bitmapFindNext0 b size start = ((start / 64 + 1) * 64 : Nat) := by
  have hhalf := h.halfway
  have hskip := skipOnes_runOff h
  have hrest : rest b (start / 64) (start % 64) (start / 64) = b (start / 64) >>> (start % 64) :=
    if_pos rfl
  have htop : rest b (start / 64) (start % 64) (start / 64) ≠ BitVec.allOnes 64 := by
    intro hall
    have hzero : (b (start / 64) >>> (start % 64)).getLsbD 63 = false := by
      rw [BitVec.getLsbD_ushiftRight]
      exact BitVec.getLsbD_of_ge _ _ (by omega)
    rw [← hrest, hall, BitVec.getLsbD_allOnes] at hzero
    exact absurd hzero (by decide)
  obtain ⟨n, hn⟩ : ∃ n, size / 8 - start / 64 = n + 1 := ⟨size / 8 - start / 64 - 1, by omega⟩
  have hpos : i32 (start : Int) = start := i32_of_lt (by omega) (by omega)
  rw [bitmapFindNext0, hn, findNext0Loop_succ, if_neg (not_or.2 ⟨h.notFull, htop⟩), hrest, hskip,
    hpos, i32_of_lt (by omega) (by omega)]
  omega

theorem bitmapFindNext0_full (hfull : b (start / 64) = BitVec.allOnes 64)
    (hsize : size / 8 * 64 < 2 ^ 31) (hstart : start < size / 8 * 64) :
    FirstIn (fun p => getBit b p = false) start (size / 8 * 64) (bitmapFindNext0 b size start) := by
  obtain ⟨n, hn⟩ : ∃ n, size / 8 - start / 64 = n + 1 := ⟨size / 8 - start / 64 - 1, by omega⟩
  have hset : ∀ q, start ≤ q → q < (start / 64 + 1) * 64 → ¬ getBit b q = false := by
    intro q hlo hhi hq
    unfold getBit at hq
    rw [show q / 64 = start / 64 by omega, hfull, BitVec.getLsbD_allOnes] at hq
    exact absurd hq (by simp; omega)
  have hwords : start / 64 + 1 + n = size / 8 := by omega
  have hscan := findNext0Loop_scan b (start / 64) (start % 64) (by omega) n (start / 64 + 1)
    (by omega) (by omega)
  rw [entry_next _ (le_refl _), hwords] at hscan
  rw [bitmapFindNext0, hn, findNext0Loop_succ, if_pos (.inl hfull), i32_of_lt (by omega) (by omega)]
  apply FirstIn.extend _ (show start ≤ (start / 64 + 1) * 64 by omega) hset
  push_cast at hscan ⊢
  rcases hscan with ⟨hr, hall⟩ | ⟨p, hr, hlo, -, hall, hp⟩
  · exact .inl ⟨hr, fun p hlo hhi => by simp [hall p hlo hhi]⟩
  · rcases hp with ⟨hhi, hclear⟩ | ⟨hword, -⟩
    · exact .inr ⟨p, hr, hlo, hhi, hclear, fun q hq hlt => by simp [hall q hq hlt]⟩
    · omega

theorem bitmapFindNext0_first_word {q : Nat} (hsize : size / 8 * 64 < 2 ^ 31)
    (hstart : start < size / 8 * 64) (hlo : start ≤ q) (hhi : q < (start / 64 + 1) * 64)
    (hq : getBit b q = false) :
    FirstIn (fun p => getBit b p = false) start (size / 8 * 64) (bitmapFindNext0 b size start) := by
  rcases bitmapFindNext0_scan b size start hsize (by omega) with
    ⟨-, hall⟩ | ⟨p, hr, hp, -, hall, hend⟩
  · rw [hall q hlo (by omega)] at hq
    cases hq
  · have hle : p ≤ q := by
      apply Nat.le_of_not_lt
      intro hlt
      rw [hall q hlo hlt] at hq
      cases hq
    rcases hend with hclear | ⟨-, hbound⟩
    · exact .inr ⟨p, hr, hp, by omega, hclear, fun r hr hlt => by simp [hall r hr hlt]⟩
    · omega

/-- The search returns the first clear bit, unless it runs off the first word and the next
word boundary is the end of the bitmap or a set bit. -/
theorem bitmap_find_next_0_iff (b : BitmapT) {size start : Nat} (hsize : size / 8 * 64 < 2 ^ 31)
    (hstart : start < size / 8 * 64) :
    FirstIn (fun p => getBit b p = false) start (size / 8 * 64) (bitmapFindNext0 b size start) ↔
      ¬ (RunOff b start ∧ ((start / 64 + 1) * 64 < size / 8 * 64 →
        getBit b ((start / 64 + 1) * 64) = true)) := by
  constructor
  · rintro hfirst ⟨hoff, hnext⟩
    rw [bitmapFindNext0_runOff hoff hsize hstart] at hfirst
    rcases hfirst with ⟨hr, -⟩ | ⟨p, hr, -, hhi, hclear, -⟩
    · omega
    · have hp : p = (start / 64 + 1) * 64 := by omega
      subst hp
      rw [hnext hhi] at hclear
      cases hclear
  · intro hnot
    by_cases hseen : ∀ q, start ≤ q → q < (start / 64 + 1) * 64 → getBit b q = true
    · by_cases hfull : b (start / 64) = BitVec.allOnes 64
      · exact bitmapFindNext0_full hfull hsize hstart
      · have hoff : RunOff b start := ⟨hseen, hfull⟩
        rw [bitmapFindNext0_runOff hoff hsize hstart]
        by_cases hhi : (start / 64 + 1) * 64 < size / 8 * 64
        · have hclear : ¬ getBit b ((start / 64 + 1) * 64) = true :=
            fun hset => hnot ⟨hoff, fun _ => hset⟩
          exact .inr ⟨_, rfl, by omega, hhi, by simpa using hclear,
            fun q hq hlt => by simp [hseen q hq hlt]⟩
        · exact absurd ⟨hoff, fun h => absurd h hhi⟩ hnot
    · push Not at hseen
      obtain ⟨q, hlo, hhi, hq⟩ := hseen
      exact bitmapFindNext0_first_word hsize hstart hlo hhi (by simpa using hq)

/-- Two words, of which the first is full and the second has its lowest bit set. -/
theorem bitmap_find_next_0_second_word :
    FirstIn (fun p => getBit (fun i => if i = 0 then BitVec.allOnes 64 else 1#64) p = false) 40 128
      (bitmapFindNext0 (fun i => if i = 0 then BitVec.allOnes 64 else 1#64) 16 40) := by
  refine (bitmap_find_next_0_iff _ (show 16 / 8 * 64 < 2 ^ 31 by decide) (by decide)).2 ?_
  rintro ⟨⟨-, hfull⟩, -⟩
  exact hfull rfl

/-- From bit 40 of a word whose upper 32 bits are set, in front of a full word: the search
returns 64, a set bit. -/
theorem bitmap_find_next_0_set_bit :
    let b : BitmapT := fun i => if i = 0 then 0xffffffff00000000#64 else BitVec.allOnes 64
    bitmapFindNext0 b 16 40 = 64 ∧ getBit b 64 = true ∧
      ¬ FirstIn (fun p => getBit b p = false) 40 128 (bitmapFindNext0 b 16 40) := by
  intro b
  have hr : bitmapFindNext0 b 16 40 = 64 := by decide +kernel
  have hset : getBit b 64 = true := by decide +kernel
  refine ⟨hr, hset, ?_⟩
  rw [hr]
  rintro (⟨h, -⟩ | ⟨p, hp, -, -, hclear, -⟩)
  · cases h
  · have h64 : p = 64 := by omega
    rw [h64, hset] at hclear
    cases hclear

/-! ## A clear area -/

/-- An area of `count` clear bits, all of which exist. -/
def FitsAt (b : BitmapT) (size count p : Nat) : Prop :=
  AreaClear b p count ∧ p + count ≤ size / 8 * 64

/-- From `start` on, the only area is the one that ends with the bitmap. -/
structure OnlyLast (b : BitmapT) (size start count : Nat) : Prop where
  fits : start + count ≤ size / 8 * 64
  clear : AreaClear b (size / 8 * 64 - count) count
  first : ∀ p, start ≤ p → p + count < size / 8 * 64 → ¬ AreaClear b p count

theorem findAreaLoop_past (b : BitmapT) (count : Int) (hstart : size / 8 * 64 ≤ start)
    (fuel : Nat) : findAreaLoop b size count (fuel + 1) start = some (-1) := by
  have hnone : bitmapFindNext0 b size start = -1 := by
    rw [bitmapFindNext0, show size / 8 - start / 64 = 0 by omega]
    rfl
  rw [findAreaLoop, hnone]
  rfl

/-- The search ends, for any start, with the first area in front of the last bit. -/
theorem findAreaLoop_ends (b : BitmapT) {count : Nat} (start : Nat) (hsize : size / 8 * 64 < 2 ^ 30)
    (hpos : 1 ≤ count) (hcount : count < 2 ^ 30) :
    ∃ r, findAreaLoop b size count (size / 8 * 64 + 1) start = some r ∧
      FirstIn (FreeArea b size count) start (size / 8 * 64) r := by
  by_cases hstart : start < size / 8 * 64
  · exact findAreaLoop_first b size count hpos (by omega) _ start (by omega) (by omega)
  · exact ⟨-1, findAreaLoop_past b count (by omega) _, .inl ⟨rfl, fun p hlo hhi => by omega⟩⟩

/-- The two notions of an area differ in one place. -/
theorem fitsAt_iff {count p : Nat} :
    FitsAt b size count p ↔
      FreeArea b size count p ∨ AreaClear b p count ∧ p + count = size / 8 * 64 := by
  constructor
  · rintro ⟨hclear, hend⟩
    rcases Nat.lt_or_eq_of_le hend with hlt | heq
    · exact .inl ⟨hclear, hlt⟩
    · exact .inr ⟨hclear, heq⟩
  · rintro (⟨hclear, hlt⟩ | ⟨hclear, heq⟩)
    · exact ⟨hclear, Nat.le_of_lt hlt⟩
    · exact ⟨hclear, Nat.le_of_eq heq⟩

/-- The search ends and returns the first area, unless that is the one at the end of the
bitmap. -/
theorem bitmap_find_next_0_area_iff (b : BitmapT) {size count : Nat} (start : Nat)
    (hsize : size / 8 * 64 < 2 ^ 30) (hpos : 1 ≤ count) (hcount : count < 2 ^ 30) :
    ∃ fuel r, findAreaLoop b size count fuel start = some r ∧
      bitmapFindNext0Area b size start count = r ∧
      (FirstIn (FitsAt b size count) start (size / 8 * 64) r ↔ ¬ OnlyLast b size start count) := by
  obtain ⟨r, hrun, hfree⟩ := findAreaLoop_ends b start hsize hpos hcount
  refine ⟨_, r, hrun, by rw [bitmapFindNext0Area, hrun]; rfl, ?_⟩
  constructor
  · rintro hfits ⟨hlen, hclear, hnone⟩
    have hlast : FitsAt b size count (size / 8 * 64 - count) := ⟨hclear, by omega⟩
    rcases hfree with ⟨hr, -⟩ | ⟨p, -, hlo, -, harea, -⟩
    · rcases hfits with ⟨-, hno⟩ | ⟨p, hp, -⟩
      · exact hno _ (by omega) (by omega) hlast
      · omega
    · exact hnone p hlo harea.2 harea.1
  · intro hnot
    rcases hfree with ⟨hr, hno⟩ | ⟨p, hr, hlo, hhi, harea, hmin⟩
    · refine .inl ⟨hr, fun p hlo hhi hfits => ?_⟩
      rcases fitsAt_iff.1 hfits with harea | ⟨hclear, hend⟩
      · exact hno p hlo hhi harea
      · -- the area at the end would be the only one
        refine hnot ⟨by omega, ?_, fun q hq hlt hq' => hno q hq (by omega) ⟨hq', hlt⟩⟩
        rwa [← hend, Nat.add_sub_cancel]
    · refine .inr ⟨p, hr, hlo, hhi, fitsAt_iff.2 (.inl harea), fun q hq hlt hfits => ?_⟩
      rcases fitsAt_iff.1 hfits with hfree | ⟨-, hend⟩
      · exact hmin q hq hlt hfree
      · have hbefore := harea.2
        omega

/-- In an empty bitmap of one word, an area of 63 bits is found. -/
theorem bitmap_find_next_0_area_found :
    ∃ fuel r, findAreaLoop (fun _ => 0#64) 8 (63 : Nat) fuel 0 = some r ∧
      bitmapFindNext0Area (fun _ => 0#64) 8 0 (63 : Nat) = r ∧
      (FirstIn (FitsAt (fun _ => 0#64) 8 63) 0 64 r ↔ ¬ OnlyLast (fun _ => 0#64) 8 0 63) :=
  bitmap_find_next_0_area_iff _ 0 (by decide) (by decide) (by decide)

/-- In an empty bitmap of one word the area of all its 64 bits is not found. -/
theorem bitmap_find_next_0_area_whole :
    bitmapFindNext0Area (fun _ => 0#64) 8 0 (64 : Nat) = -1 ∧
      FitsAt (fun _ => 0#64) 8 64 0 := by
  refine ⟨by decide +kernel, fun q _ _ => ?_, by decide⟩
  exact BitVec.getLsbD_zero

end SpringOs.Bitmap
