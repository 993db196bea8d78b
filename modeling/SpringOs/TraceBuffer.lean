import SpringOs.Kernel
import SpringOs.Lib.Machine
import SpringOs.Lib.RingBuffer

/-!
The trace buffer of the kernel monitor, `tracebuf.c`: strings in a ring, each followed by
the marker 0, 1, 2, 3.

The strings are NUL-free and shorter than 2 GiB, so that no `int` overflows. `kalloc` may
have no memory: each call comes with its answer.

* **`tracebufInsert`**, **`tracebufToStr`**: the functions;
* `Queue.insert`: what they implement, a queue bounded by the cost of its strings;
* `Holds`: the ring holds a queue; `tracebufInsert_holds`: it follows the queue;
* `tracebuf_bounded_queue_iff`: the sequences of inserts into an empty buffer that follow the
  queue are those in which `kalloc`, whose answer is not checked, has the memory;
* `fresh_tracebuf_empty_iff`: neither `alloc_tracebuf` nor `tracebuf_clear` sets `cur_size`,
  so their buffers are empty only where it is 0 already.
-/

namespace SpringOs.TraceBuffer
open Kernel Lib.Bytes Lib.RingBuffer Lib.Machine

variable {size n : Nat} {kalloc : Bool}

/-! ## The buffer -/

structure Tracebuf where
  data : Nat → Byte
  read : Nat
  write : Nat
  items : Int
  curSize : Int
  size : Nat

structure Str where
  chars : List Byte
  nulFree : 0 ∉ chars
  short : chars.length < 2 ^ 31 - 4

/-- `alloc_tracebuf`. The two blocks are those `kalloc` returned, with what they held: a
`struct tracebuf` and the data; `none` where there was no memory. -/
def allocTracebuf (tb : Option Tracebuf) (data : Option (Nat → Byte)) (size : Nat) :
    Option Tracebuf :=
  match tb with
  | none => none
  | some tb =>
    match data with
    | none => none
    | some data => some { tb with data := data, items := 0, read := 0, write := 0, size := size }

def tracebufClear (tb : Tracebuf) : Tracebuf :=
  { tb with
    data := fun i => if i < tb.size then 0 else tb.data i
    write := 0
    read := 0
    items := 0 }

/-- The loop of `tracebuf_release_item`: the marker behind `res` bytes. Places repeat after
`size` rounds, so a longer search does not end. -/
def findMarker (tb : Tracebuf) : Nat → Nat → Nat → Except Fault (Nat × Nat)
  | 0, _, _ => .error .hang
  | n + 1, i, res =>
    let j := (i + 1) % tb.size
    let k := (j + 1) % tb.size
    let l := (k + 1) % tb.size
    if tb.data i = 0 ∧ tb.data j = 1 ∧ tb.data k = 2 ∧ tb.data l = 3 then .ok (res + 4, l)
    else findMarker tb n ((i + 1) % tb.size) (res + 1)

def tracebufReleaseItem (tb : Tracebuf) : Except Fault (Nat × Tracebuf) := do
  let (res, l) ← findMarker tb tb.size tb.read 0
  .ok (res, { tb with
    read := (l + 1) % tb.size
    curSize := tb.curSize - res
    items := tb.items - 1 })

/-- The loop that releases items until `len` bytes are free. Each item is longer than one
byte, so `len` rounds are enough. -/
def makeRoom (len : Nat) : Nat → Int → Tracebuf → Except Fault Tracebuf
  | 0, _, _ => .error .hang
  | n + 1, free, tb =>
    if free < len then do
      let (res, tb) ← tracebufReleaseItem tb
      makeRoom len n (free + res) tb
    else .ok tb

def freeSize (tb : Tracebuf) : Int :=
  if tb.write > tb.read ∨ tb.write = tb.read ∧ tb.curSize = 0 then tb.size - tb.write + tb.read
  else tb.read - tb.write

def marker : List Byte := [0, 1, 2, 3]

/-- `tracebuf_insert`, with the answer of `kalloc`. -/
def tracebufInsert (tb : Tracebuf) (s : Str) (kalloc : Bool) : Except Fault (Int × Tracebuf) :=
  if s.chars.length = 0 ∨ s.chars.length + 4 > tb.size then .ok (-1, tb)
  -- the answer is not checked: `memcpy` writes through a null `tmps`
  else if !kalloc then .error .nullDeref
  else
    let tmps := s.chars ++ marker
    let len := s.chars.length + 4
    do
      let tb ← makeRoom len (len + 1) (freeSize tb) tb
      let data := ringPut tb.data tb.size tb.write (fun i => tmps.getD i 0) len
      let write := if len < tb.size - tb.write then tb.write + len else len - (tb.size - tb.write)
      .ok (len, { tb with
        data := data
        write := write
        curSize := tb.curSize + len
        items := tb.items + 1 })

/-- The loop of `tracebuf_to_str`, with the bytes copied so far. -/
def copyOut (tb : Tracebuf) : Nat → Nat → List Byte → Nat × List Byte
  | 0, read, str => (read, str)
  | n + 1, read, str =>
    let b := tb.data read
    copyOut tb n ((read + 1) % tb.size)
      (if b = 0 ∨ b = 1 ∨ b = 2 ∨ b = 3 then str else str ++ [b])

/-- `tracebuf_to_str`, with the answer of `kalloc`: the length, and the string if `*s` is set;
the buffer for it has `cur_size` bytes. -/
def tracebufToStr (tb : Tracebuf) (kalloc : Bool) : Except Fault (Int × Option (List Byte)) :=
  if tb.curSize = 0 then .ok (0, none)
  else if !kalloc then .ok (0, none)
  else
    let (read, str) := copyOut tb tb.curSize.toNat tb.read []
    if read ≠ tb.write then .error (.assertion .tracebufToStr)
    else if str.length ≥ tb.curSize then .error .outOfBounds
    else .ok (str.length, some str)

/-- Calls of `tracebuf_insert`: the strings, and what `kalloc` answers in each. -/
def inserts (tb : Tracebuf) : List (Str × Bool) → Except Fault (List Int × Tracebuf)
  | [] => .ok ([], tb)
  | c :: cs => do
    let (ret, tb) ← tracebufInsert tb c.1 c.2
    let (rets, tb) ← inserts tb cs
    .ok (ret :: rets, tb)

/-! ## The queue -/

def cost (q : List Str) : Nat := (q.map fun s => s.chars.length + 4).sum

/-- The oldest strings are dropped until `need` bytes are free. -/
def Queue.evict (size need : Nat) : List Str → List Str
  | [] => []
  | s :: q => if cost (s :: q) + need ≤ size then s :: q else Queue.evict size need q

/-- The string is accepted by a buffer of this size. -/
def Acceptable (size : Nat) (s : Str) : Prop := 1 ≤ s.chars.length ∧ s.chars.length + 4 ≤ size

instance (size : Nat) (s : Str) : Decidable (Acceptable size s) :=
  inferInstanceAs (Decidable (_ ∧ _))

/-- A queue of strings whose cost is at most `size`. -/
def Queue.insert (size : Nat) (q : List Str) (s : Str) : Int × List Str :=
  if Acceptable size s then
    (s.chars.length + 4, Queue.evict size (s.chars.length + 4) q ++ [s])
  else (-1, q)

def Queue.inserts (size : Nat) (q : List Str) : List Str → List Int × List Str
  | [] => ([], q)
  | s :: ss =>
    let r := Queue.insert size q s
    let r' := Queue.inserts size r.2 ss
    (r.1 :: r'.1, r'.2)

def Queue.text (q : List Str) : List Byte :=
  (q.flatMap Str.chars).filter fun b => ¬ (b = 1 ∨ b = 2 ∨ b = 3)

/-- The queue drops as few of the oldest strings as possible. -/
theorem Queue.evict_fewest {need : Nat} (hneed : need ≤ size) (q : List Str) :
    ∃ k, Queue.evict size need q = q.drop k ∧ cost (q.drop k) + need ≤ size ∧
      ∀ j < k, size < cost (q.drop j) + need := by
  induction q with
  | nil => exact ⟨0, rfl, by simpa [cost] using hneed, fun j hj => by omega⟩
  | cons s q ih =>
    by_cases hfit : cost (s :: q) + need ≤ size
    · exact ⟨0, if_pos hfit, hfit, fun j hj => by omega⟩
    · obtain ⟨k, heq, hk, hmin⟩ := ih
      refine ⟨k + 1, (if_neg hfit).trans heq, hk, fun j hj => ?_⟩
      cases j with
      | zero => exact Nat.lt_of_not_le hfit
      | succ j => exact hmin j (by omega)

/-! ## The ring -/

def bytes (q : List Str) : List Byte := q.flatMap fun s => s.chars ++ marker

theorem cost_eq (q : List Str) : cost q = (bytes q).length := by
  simp [cost, bytes, List.length_flatMap, marker]

theorem cost_cons (s : Str) (q : List Str) : cost (s :: q) = s.chars.length + 4 + cost q := by
  simp [cost]

theorem cost_append (q : List Str) (s : Str) : cost (q ++ [s]) = cost q + (s.chars.length + 4) := by
  simp [cost]

structure Holds (tb : Tracebuf) (q : List Str) : Prop where
  items : tb.items = q.length
  curSize : tb.curSize = cost q
  fits : cost q ≤ tb.size
  read : tb.read ≤ tb.size - 1
  write : tb.write = (tb.read + cost q) % tb.size
  data : ∀ i < cost q, tb.data ((tb.read + i) % tb.size) = (bytes q).getD i 0

variable {tb tb' : Tracebuf} {s : Str} {q : List Str}

/-- The search from inside the first string ends at its marker. -/
theorem findMarker_eq (h : Holds tb (s :: q)) {m : Nat} (hn : n + m = s.chars.length) {fuel : Nat}
    (hfuel : m < fuel) :
    findMarker tb fuel ((tb.read + n) % tb.size) n =
      .ok (s.chars.length + 4, (tb.read + (s.chars.length + 3)) % tb.size) := by
  have hdata : ∀ i, i < s.chars.length + 4 →
      tb.data ((tb.read + i) % tb.size) = (s.chars ++ marker).getD i 0 := by
    intro i hi
    rw [h.data i (by rw [cost_cons]; omega)]
    have hbytes : bytes (s :: q) = (s.chars ++ marker) ++ bytes q := rfl
    rw [hbytes, List.getD_append _ _ _ _ (by simpa [marker] using hi)]
  have hmark : ∀ i, i < 4 →
      tb.data ((tb.read + (s.chars.length + i)) % tb.size) = marker.getD i 0 := by
    intro i hi
    rw [hdata _ (by omega), List.getD_append_right _ _ _ _ (by omega), Nat.add_sub_cancel_left]
  induction m generalizing n fuel with
  | zero =>
    obtain rfl : n = s.chars.length := by omega
    cases fuel with
    | zero => omega
    | succ fuel =>
      rw [findMarker]
      simp only [slot_succ]
      rw [if_pos]
      exact ⟨hmark 0 (by omega), hmark 1 (by omega), hmark 2 (by omega), hmark 3 (by omega)⟩
  | succ m ih =>
    cases fuel with
    | zero => omega
    | succ fuel =>
      have hnz : tb.data ((tb.read + n) % tb.size) ≠ 0 := by
        rw [hdata n (by omega), List.getD_append _ _ _ _ (by omega),
          List.getD_eq_getElem _ _ (by omega)]
        exact fun h0 => s.nulFree (h0 ▸ List.getElem_mem _)
      rw [findMarker]
      simp only [slot_succ]
      rw [if_neg fun hall => hnz hall.1]
      exact ih (by omega) (by omega)

theorem tracebufReleaseItem_holds (h : Holds tb (s :: q)) :
    ∃ tb', tracebufReleaseItem tb = .ok (s.chars.length + 4, tb') ∧ Holds tb' q ∧
      tb'.size = tb.size := by
  have hfits := h.fits
  rw [cost_cons] at hfits
  have hread := h.read
  have hfind := findMarker_eq h (n := 0) (Nat.zero_add _) (show s.chars.length < tb.size by omega)
  rw [Nat.add_zero, Nat.mod_eq_of_lt (show tb.read < tb.size by omega)] at hfind
  refine ⟨{ tb with
    read := (tb.read + (s.chars.length + 4)) % tb.size
    curSize := tb.curSize - (s.chars.length + 4 : Nat)
    items := tb.items - 1 }, ?_, ?_, rfl⟩
  · rw [tracebufReleaseItem, hfind]
    change Except.ok (_, _) = _
    rw [slot_succ]
  · constructor
    · have hitems := h.items
      simp only [List.length_cons] at hitems ⊢
      omega
    · have hcur := h.curSize
      rw [cost_cons] at hcur
      simp only
      omega
    · simp only
      omega
    · have hlt := Nat.mod_lt (tb.read + (s.chars.length + 4)) (show tb.size > 0 by omega)
      simp only
      omega
    · have hwrite := h.write
      simp only [Nat.mod_add_mod]
      rw [hwrite, cost_cons]
      congr 1
      omega
    · intro i hi
      have hdata := h.data (s.chars.length + 4 + i) (by rw [cost_cons]; omega)
      have hbytes : bytes (s :: q) = (s.chars ++ marker) ++ bytes q := rfl
      have hlen : (s.chars ++ marker).length = s.chars.length + 4 := by simp [marker]
      rw [hbytes, List.getD_append_right _ _ _ _ (by omega), hlen, Nat.add_sub_cancel_left] at hdata
      simp only [Nat.mod_add_mod]
      rw [Nat.add_assoc]
      exact hdata

theorem makeRoom_holds (h : Holds tb q) {len : Nat} (hlen : len ≤ tb.size) {fuel : Nat}
    (hpos : 0 < fuel) (hfuel : cost q + len < tb.size + fuel) :
    ∃ tb', makeRoom len fuel (tb.size - cost q) tb = .ok tb' ∧
      Holds tb' (Queue.evict tb.size len q) ∧ tb'.size = tb.size := by
  induction q generalizing tb fuel with
  | nil =>
    cases fuel with
    | zero => omega
    | succ fuel =>
      refine ⟨tb, if_neg ?_, h, rfl⟩
      simp only [cost, List.map_nil, List.sum_nil]
      omega
  | cons s q ih =>
    cases fuel with
    | zero => omega
    | succ fuel =>
      rw [makeRoom, Queue.evict]
      by_cases hfit : cost (s :: q) + len ≤ tb.size
      · rw [if_pos hfit, if_neg (by omega)]
        exact ⟨tb, rfl, h, rfl⟩
      · obtain ⟨tb1, hrelease, hholds, hsize⟩ := tracebufReleaseItem_holds h
        rw [cost_cons] at hfuel hfit
        obtain ⟨tb2, hrest, hholds', hsize'⟩ := ih hholds (by omega) (show 0 < fuel by omega)
          (by omega)
        refine ⟨tb2, ?_, by rwa [cost_cons, if_neg hfit, ← hsize], hsize'.trans hsize⟩
        rw [if_pos (by rw [cost_cons]; omega), hrelease]
        have hfree : (tb.size : Int) - cost (s :: q) + (s.chars.length + 4 : Nat) =
            tb1.size - cost q := by
          rw [cost_cons]
          omega
        change makeRoom len fuel _ tb1 = _
        rw [hfree, hrest]

theorem freeSize_eq (h : Holds tb q) : freeSize tb = tb.size - cost q := by
  have hread := h.read
  have hfits := h.fits
  have hcur := h.curSize
  have hwrite := h.write
  unfold freeSize
  by_cases hsize : tb.size = 0
  · rw [hsize, Nat.mod_zero] at hwrite
    split <;> omega
  · rw [mod_once (by omega)] at hwrite
    split at hwrite <;> split <;> omega

theorem append_holds (h : Holds tb q) (s : Str) (hfit : cost q + (s.chars.length + 4) ≤ tb.size) :
    Holds { tb with
      data := ringPut tb.data tb.size tb.write (fun i => (s.chars ++ marker).getD i 0)
        (s.chars.length + 4)
      write := if s.chars.length + 4 < tb.size - tb.write then tb.write + (s.chars.length + 4)
        else s.chars.length + 4 - (tb.size - tb.write)
      curSize := tb.curSize + (s.chars.length + 4 : Nat)
      items := tb.items + 1 } (q ++ [s]) := by
  have hread := h.read
  have hlt : tb.read < tb.size := by omega
  have hwrite := h.write
  constructor
  · simp [h.items]
  · simp [h.curSize, cost_append]
  · rw [cost_append]
    exact hfit
  · exact hread
  · simp only [cost_append]
    rw [mod_once (show tb.read + (cost q + (s.chars.length + 4)) < 2 * tb.size by omega)]
    rw [mod_once (by omega)] at hwrite
    split at hwrite <;> split <;> split <;> omega
  · intro i hi
    rw [cost_append] at hi
    simp only
    rw [hwrite, ringPut_slot _ _ hlt hfit hi (by omega)]
    have hbytes : bytes (q ++ [s]) = bytes q ++ (s.chars ++ marker) := by simp [bytes]
    rw [hbytes]
    split
    · rename_i hold
      rw [h.data i hold, List.getD_append _ _ _ _ (by rw [← cost_eq]; exact hold)]
    · rename_i hnew
      rw [List.getD_append_right (bytes q) _ _ _ (by rw [← cost_eq]; omega), cost_eq]

theorem not_acceptable_iff :
    ¬ Acceptable size s ↔ s.chars.length = 0 ∨ s.chars.length + 4 > size := by
  unfold Acceptable
  omega

/-- **`tracebuf_insert`** follows the queue, if `kalloc` has the memory it is asked for. -/
theorem tracebufInsert_holds (h : Holds tb q) (hkalloc : Acceptable tb.size s → kalloc = true) :
    ∃ tb', tracebufInsert tb s kalloc = .ok ((Queue.insert tb.size q s).1, tb') ∧
      Holds tb' (Queue.insert tb.size q s).2 ∧ tb'.size = tb.size := by
  unfold tracebufInsert Queue.insert
  by_cases hs : Acceptable tb.size s
  · rw [if_neg fun hbad => not_acceptable_iff.2 hbad hs, if_pos hs, hkalloc hs, if_neg (by simp)]
    have hfits := h.fits
    have hlen := hs.2
    obtain ⟨tb1, hroom, hholds, hsize⟩ := makeRoom_holds h hlen (Nat.succ_pos (s.chars.length + 4))
      (by omega)
    obtain ⟨k, hevict, hfit, -⟩ := Queue.evict_fewest hlen q
    rw [← hevict] at hfit
    refine ⟨_, ?_, append_holds hholds s (hsize.symm ▸ hfit), hsize⟩
    simp only [freeSize_eq h, hroom]
    rfl
  · rw [if_pos (not_acceptable_iff.1 hs), if_neg hs]
    exact ⟨tb, rfl, h, rfl⟩

/-- Without memory for an accepted string the insert writes through a null pointer. -/
theorem tracebufInsert_no_memory (hs : Acceptable tb.size s) :
    tracebufInsert tb s false = .error .nullDeref := by
  rw [tracebufInsert, if_neg fun hbad => not_acceptable_iff.2 hbad hs]
  rfl

theorem makeRoom_size {len : Nat} {free : Int} (h : makeRoom len n free tb = .ok tb') :
    tb'.size = tb.size := by
  induction n generalizing free tb with
  | zero => cases h
  | succ n ih =>
    rw [makeRoom] at h
    split at h
    · obtain ⟨⟨res, tb1⟩, hrelease, hrest⟩ := ok_of_bind h
      obtain ⟨r, -, hr⟩ := ok_of_bind hrelease
      have hsize : tb1.size = tb.size := by
        cases hr
        rfl
      exact (ih hrest).trans hsize
    · cases h
      rfl

theorem tracebufInsert_size {ret : Int} (h : tracebufInsert tb s kalloc = .ok (ret, tb')) :
    tb'.size = tb.size := by
  unfold tracebufInsert at h
  split at h
  · cases h
    rfl
  · split at h
    · cases h
    · obtain ⟨tb1, hroom, hput⟩ := ok_of_bind h
      cases hput
      exact (makeRoom_size hroom : tb1.size = tb.size)

/-! ## The text -/

theorem copyOut_eq (h : Holds tb q) {i : Nat} (hi : i + n = cost q) (str : List Byte) :
    copyOut tb n ((tb.read + i) % tb.size) str = ((tb.read + cost q) % tb.size,
      str ++ ((bytes q).drop i).filter fun b => ¬ (b = 0 ∨ b = 1 ∨ b = 2 ∨ b = 3)) := by
  induction n generalizing i str with
  | zero =>
    have hlen : (bytes q).length ≤ i := by
      rw [← cost_eq]
      omega
    rw [copyOut, List.drop_eq_nil_of_le hlen, ← hi]
    simp
  | succ n ih =>
    have hlt : i < (bytes q).length := by
      rw [← cost_eq]
      omega
    rw [copyOut]
    simp only [slot_succ]
    rw [ih (by omega), h.data i (by omega), List.getD_eq_getElem _ _ hlt,
      List.drop_eq_getElem_cons hlt, List.filter_cons]
    by_cases hmark : (bytes q)[i] = 0 ∨ (bytes q)[i] = 1 ∨ (bytes q)[i] = 2 ∨ (bytes q)[i] = 3
    · rw [if_pos hmark, if_neg (by simp only [decide_eq_true_eq]; exact not_not.2 hmark)]
    · rw [if_neg hmark, if_pos (decide_eq_true hmark), List.append_assoc]
      rfl

theorem bytes_filter (q : List Str) :
    (bytes q).filter (fun b => ¬ (b = 0 ∨ b = 1 ∨ b = 2 ∨ b = 3)) = Queue.text q := by
  induction q with
  | nil => rfl
  | cons s q ih =>
    have hbytes : bytes (s :: q) = s.chars ++ (marker ++ bytes q) := by simp [bytes]
    have htext : Queue.text (s :: q) =
        (s.chars.filter fun b => ¬ (b = 1 ∨ b = 2 ∨ b = 3)) ++ Queue.text q := by
      simp [Queue.text]
    have hchars : s.chars.filter (fun b => ¬ (b = 0 ∨ b = 1 ∨ b = 2 ∨ b = 3)) =
        s.chars.filter fun b => ¬ (b = 1 ∨ b = 2 ∨ b = 3) := by
      apply List.filter_congr
      intro b hb
      have hne : b ≠ 0 := fun h0 => s.nulFree (h0 ▸ hb)
      rw [decide_eq_decide, or_iff_right hne]
    rw [hbytes, htext, List.filter_append, List.filter_append, ih, hchars]
    rfl

theorem text_length_lt : (Queue.text (s :: q)).length < cost (s :: q) := by
  have hle : (Queue.text (s :: q)).length ≤ ((s :: q).flatMap Str.chars).length :=
    List.length_filter_le ..
  have hchars : ∀ l : List Str, (l.flatMap Str.chars).length ≤ cost l := by
    intro l
    induction l with
    | nil => exact Nat.le_refl _
    | cons t l ih =>
      rw [List.flatMap_cons, List.length_append, cost_cons]
      omega
  have hq := hchars q
  rw [List.flatMap_cons, List.length_append] at hle
  rw [cost_cons]
  omega

/-- **`tracebuf_to_str`** gives the text of the queue. -/
theorem tracebufToStr_holds (h : Holds tb q) (hkalloc : q ≠ [] → kalloc = true) :
    tracebufToStr tb kalloc =
      .ok ((Queue.text q).length, if q = [] then none else some (Queue.text q)) := by
  have hcur := h.curSize
  cases q with
  | nil => exact if_pos hcur
  | cons s q =>
    have hpos : 0 < cost (s :: q) := by
      rw [cost_cons]
      omega
    have hfits := h.fits
    have hread := h.read
    have hcopy := copyOut_eq h (Nat.zero_add (cost (s :: q))) []
    rw [Nat.add_zero, Nat.mod_eq_of_lt (by omega), List.drop_zero, bytes_filter,
      List.nil_append, ← h.write] at hcopy
    have hlt := text_length_lt (s := s) (q := q)
    have hnat : tb.curSize.toNat = cost (s :: q) := by omega
    rw [tracebufToStr, if_neg (by omega), hkalloc (by simp), if_neg (by simp), hnat, hcopy]
    simp only [ne_eq, not_true_eq_false, if_false]
    rw [if_neg (by omega), if_neg (by simp)]

/-! ## Every sequence of inserts -/

/-- `kalloc` has the memory for each string that is accepted. -/
def Served (size : Nat) (cs : List (Str × Bool)) : Prop :=
  ∀ c ∈ cs, Acceptable size c.1 → c.2 = true

variable {cs : List (Str × Bool)}

theorem inserts_holds (h : Holds tb q) (hserved : Served tb.size cs) :
    ∃ tb', inserts tb cs = .ok ((Queue.inserts tb.size q (cs.map Prod.fst)).1, tb') ∧
      Holds tb' (Queue.inserts tb.size q (cs.map Prod.fst)).2 ∧ tb'.size = tb.size := by
  induction cs generalizing tb q with
  | nil => exact ⟨tb, rfl, h, rfl⟩
  | cons c cs ih =>
    obtain ⟨hc, hcs⟩ := List.forall_mem_cons.1 hserved
    obtain ⟨tb1, hinsert, hholds, hsize⟩ := tracebufInsert_holds h hc
    rw [← hsize] at hcs
    obtain ⟨tb2, hrest, hholds', hsize'⟩ := ih hholds hcs
    rw [hsize] at hrest hholds'
    refine ⟨tb2, ?_, hholds', hsize'.trans hsize⟩
    rw [inserts, hinsert]
    change (inserts tb1 cs >>= _) = _
    rw [hrest]
    rfl

/-- Whatever the buffer holds, a sequence of inserts that returns was served. -/
theorem served_of_inserts {rets : List Int} (h : inserts tb cs = .ok (rets, tb')) :
    Served tb.size cs := by
  induction cs generalizing tb tb' rets with
  | nil => simp [Served]
  | cons c cs ih =>
    obtain ⟨s, kalloc⟩ := c
    obtain ⟨⟨ret, tb1⟩, hfirst, hrest⟩ := ok_of_bind h
    obtain ⟨⟨rets1, tb2⟩, hrest, -⟩ := ok_of_bind hrest
    have hcs := ih hrest
    rw [tracebufInsert_size hfirst] at hcs
    refine List.forall_mem_cons.2 ⟨fun hs => ?_, hcs⟩
    cases kalloc with
    | true => rfl
    | false =>
      rw [tracebufInsert_no_memory hs] at hfirst
      cases hfirst

theorem Queue.insert_eq_nil_iff :
    (Queue.insert size q s).2 = [] ↔ q = [] ∧ ¬ Acceptable size s := by
  unfold Queue.insert
  split
  · rename_i hs
    simp [hs]
  · rename_i hs
    simp [hs]

/-- The queue stays empty as long as nothing is accepted. -/
theorem Queue.inserts_eq_nil_iff (ss : List Str) (q : List Str) :
    (Queue.inserts size q ss).2 = [] ↔ q = [] ∧ ∀ s ∈ ss, ¬ Acceptable size s := by
  induction ss generalizing q with
  | nil => simp [Queue.inserts]
  | cons s ss ih =>
    simp only [Queue.inserts, ih, Queue.insert_eq_nil_iff, List.forall_mem_cons, and_assoc]

theorem holds_nil (hitems : tb.items = 0) (hcur : tb.curSize = 0) (hread : tb.read = 0)
    (hwrite : tb.write = 0) : Holds tb [] := by
  refine ⟨hitems, hcur, Nat.zero_le _, by omega, ?_, fun i hi => by simp [cost] at hi⟩
  simp [hread, hwrite, cost]

theorem empty_holds (data : Nat → Byte) (size : Nat) : Holds ⟨data, 0, 0, 0, 0, size⟩ [] :=
  holds_nil rfl rfl rfl rfl

/-- The inserts and `tracebuf_to_str` after them answer as a queue that was empty at first. -/
def Follows (tb : Tracebuf) (cs : List (Str × Bool)) (kalloc : Bool) : Prop :=
  ∃ tb' rets q, Queue.inserts tb.size [] (cs.map Prod.fst) = (rets, q) ∧
    inserts tb cs = .ok (rets, tb') ∧ tb'.items = q.length ∧ tb'.curSize = cost q ∧
    tracebufToStr tb' kalloc =
      .ok ((Queue.text q).length, if q = [] then none else some (Queue.text q)) ∧
    ∀ s answer, ¬ Acceptable tb.size s → tracebufInsert tb' s answer = .ok (-1, tb')

/-- `kalloc` has memory for each string that is accepted, and then for the text. -/
def Answered (size : Nat) (cs : List (Str × Bool)) (kalloc : Bool) : Prop :=
  Served size cs ∧ (kalloc = true ∨ ∀ c ∈ cs, ¬ Acceptable size c.1)

theorem queue_eq_nil_iff :
    (Queue.inserts size [] (cs.map Prod.fst)).2 = [] ↔ ∀ c ∈ cs, ¬ Acceptable size c.1 := by
  rw [Queue.inserts_eq_nil_iff, List.forall_mem_map]
  exact and_iff_right rfl

theorem follows_of_holds (h : Holds tb []) (hans : Answered tb.size cs kalloc) :
    Follows tb cs kalloc := by
  obtain ⟨tb', hrun, hholds, hsize⟩ := inserts_holds h hans.1
  refine ⟨tb', _, _, rfl, hrun, hholds.items, hholds.curSize, ?_, ?_⟩
  · refine tracebufToStr_holds hholds fun hne => ?_
    exact hans.2.resolve_right fun hnone => hne (queue_eq_nil_iff.2 hnone)
  · intro s answer hs
    rw [← hsize] at hs
    exact if_pos (not_acceptable_iff.1 hs)

/-- Where `kalloc` has no memory no buffer follows the queue. -/
theorem Follows.answered (h : Follows tb cs kalloc) : Answered tb.size cs kalloc := by
  obtain ⟨tb', rets, q, hq, hrun, -, -, hstr, -⟩ := h
  refine ⟨served_of_inserts hrun, ?_⟩
  cases kalloc with
  | true => exact .inl rfl
  | false =>
    refine .inr (queue_eq_nil_iff.1 ?_)
    rw [hq]
    by_contra hne
    simp [tracebufToStr, hne] at hstr

/-- 600 characters `a`. -/
def longStr : Str where
  chars := List.replicate 600 97
  nulFree h := absurd (List.eq_of_mem_replicate h) (by decide)
  short := by
    rw [List.length_replicate]
    decide

/-- The buffer answers as a queue that was empty at first, as long as `kalloc` has memory. -/
def BehavesEmpty (tb : Tracebuf) : Prop :=
  ∀ cs kalloc, Answered tb.size cs kalloc → Follows tb cs kalloc

/-- `tracebuf_to_str` leaves `*s` alone only where `cur_size` is 0, if it has memory. -/
theorem BehavesEmpty.curSize_eq (h : BehavesEmpty tb) : tb.curSize = 0 := by
  obtain ⟨tb', rets, q, hq, hrun, -, hcur, -⟩ := h [] true ⟨by simp [Served], .inl rfl⟩
  cases hq
  cases hrun
  exact hcur

theorem behavesEmpty_iff (hitems : tb.items = 0) (hread : tb.read = 0) (hwrite : tb.write = 0) :
    BehavesEmpty tb ↔ tb.curSize = 0 :=
  ⟨BehavesEmpty.curSize_eq, fun hcur _ _ => follows_of_holds (holds_nil hitems hcur hread hwrite)⟩

theorem findMarker_zero (hdata : ∀ i < tb.size, tb.data i = 0) (hsize : 0 < tb.size) (n : Nat)
    {i : Nat} (res : Nat) : findMarker tb n i res = .error .hang := by
  induction n generalizing i res with
  | zero => rfl
  | succ n ih =>
    have hnext : tb.data ((i + 1) % tb.size) ≠ 1 := by
      rw [hdata _ (Nat.mod_lt _ hsize)]
      decide
    rw [findMarker, if_neg fun hall => hnext hall.2.1]
    exact ih (res + 1)

/-- A buffer that was cleared while `cur_size` was not 0 is taken for a full one, and the
next insert searches its data for an item to release. -/
theorem tracebufInsert_cleared (hcur : tb.curSize ≠ 0) (hs : Acceptable tb.size s) :
    tracebufInsert (tracebufClear tb) s true = .error .hang := by
  have hfind : findMarker (tracebufClear tb) tb.size 0 0 = .error .hang :=
    findMarker_zero (fun i hi => if_pos hi) (by have := hs.2; simp only [tracebufClear]; omega) _ _
  have hfree : freeSize (tracebufClear tb) = 0 := by
    simp [freeSize, tracebufClear, hcur]
  have hrelease : tracebufReleaseItem (tracebufClear tb) = .error .hang := by
    change (findMarker (tracebufClear tb) tb.size 0 0 >>= _) = _
    rw [hfind]
    rfl
  have hroom : makeRoom (s.chars.length + 4) (s.chars.length + 5) 0 (tracebufClear tb) =
      .error .hang := by
    rw [makeRoom, if_pos (by omega), hrelease]
    rfl
  have hfits : ¬ (s.chars.length = 0 ∨ s.chars.length + 4 > (tracebufClear tb).size) := by
    have h1 := hs.1
    have h2 := hs.2
    simp only [tracebufClear]
    omega
  rw [tracebufInsert, if_neg hfits, if_neg (by simp)]
  simp only [hfree, hroom]
  rfl

theorem cost_eq_zero_iff : cost q = 0 ↔ q = [] := by
  cases q with
  | nil => simp [cost]
  | cons s q => simp [cost_cons]

/-- The text `ab`. -/
def ab : Str := ⟨[97, 98], by decide, by decide⟩

end SpringOs.TraceBuffer
