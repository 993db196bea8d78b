import SpringOs.Lib.LeonardoForest
import SpringOs.Lib.Machine

/-!
`qsort.c`: smoothsort on elements of any width, in memory.

The elements are blocks of bytes. `sift` and `trinkle` collect pointers in `ar`, and `cycle` moves
the blocks there by up to 256 bytes at a time. The orders of the trees are the set bits of the two
words `p`, of which the lowest one stands for order `pshift`.

* **`cycle_shift`**: `cycle` moves whole elements along the path;
* **`sift_eq`**: `sift` moves an element down its tree.
-/

namespace SpringOs.Qsort
open Lib.Leonardo Lib.Machine
open Function (update update_self update_of_ne update_eq_self)

/-! ## Memory -/

/-- A byte that is not there cannot be accessed. -/
abbrev Mem := Nat → Option UInt8

def load (mem : Mem) (p : Nat) : Nat → Option (List UInt8)
  | 0 => some []
  | n + 1 => do
    let b ← mem p
    let bs ← load mem (p + 1) n
    return b :: bs

def store (mem : Mem) (p : Nat) : List UInt8 → Option Mem
  | [] => some mem
  | b :: bs => do
    let _ ← mem p
    store (update mem p (some b)) (p + 1) bs

def memcpy (mem : Mem) (dst src n : Nat) : Option Mem := do
  let bs ← load mem src n
  store mem dst bs

/-! ## The words of orders -/

/-- `size_t p[2]`. -/
structure Orders where
  p0 : BitVec 64
  p1 : BitVec 64
  deriving DecidableEq

/-- `rbit` and `clz`; 64 for 0. -/
def ntz (x : BitVec 64) : Nat := x.reverse.clz.toNat

def pntz (p : Orders) : Nat :=
  let r := ntz (p.p0 - 1)
  if r ≠ 0 then r
  else
    let r := 64 + ntz p.p1
    if r ≠ 64 then r else 0

/-- A shift by 64 is one by 0, as the processor has it. -/
def shl (p : Orders) (n : Nat) : Orders :=
  let (n, p) := if 64 ≤ n then (n - 64, ⟨0, p.p0⟩) else (n, p)
  ⟨p.p0 <<< n, p.p1 <<< n ||| p.p0 >>> ((64 - n) % 64)⟩

def shr (p : Orders) (n : Nat) : Orders :=
  let (n, p) := if 64 ≤ n then (n - 64, ⟨p.p1, 0⟩) else (n, p)
  ⟨p.p0 >>> n ||| p.p1 <<< ((64 - n) % 64), p.p1 >>> n⟩

/-! ## The functions -/

/-- `memcpy(ar[i], ar[i + 1], l)` for all `i`, with `tmp` after the last pointer. -/
def cycleRound (l : Nat) (tmp : List UInt8) : Mem → List Nat → Option Mem
  | mem, [] => some mem
  | mem, [q] => store mem q tmp
  | mem, q :: q' :: ar => do
    let mem ← memcpy mem q q' l
    cycleRound l tmp mem (q' :: ar)

structure Cycle where
  width : Nat
  mem : Mem
  ar : List Nat

/-- A round of the loop of `cycle`, through a buffer of 256 bytes. -/
def cycleBody (s : Cycle) : Option Cycle := do
  let l := if 256 < s.width then 256 else s.width
  let tmp ← load s.mem (← s.ar.head?) l
  let mem ← cycleRound l tmp s.mem s.ar
  return ⟨s.width - l, mem, s.ar.map (· + l)⟩

/-- The entries of `ar`, which also has to hold the pointer to `tmp`. -/
def arSize : Nat := 14 * 8 + 1

def push (ar : List Nat) (q : Nat) : Option (List Nat) :=
  if ar.length < arSize then some (ar ++ [q]) else none

def cycle (width : Nat) (mem : Mem) (ar : List Nat) : Option Mem :=
  if ar.length < 2 then some mem
  else if ar.length < arSize then
    (loopM (fun s => decide (s.width ≠ 0)) cycleBody width ⟨width, mem, ar⟩).map (·.mem)
  else none

section
variable (width : Nat) (cmp : List UInt8 → List UInt8 → Int) (lp : List Nat)

def compare (mem : Mem) (a b : Nat) : Option Int := do
  let x ← load mem a width
  let y ← load mem b width
  return cmp x y

/-- The loop of `sift`, with the pointers it puts into `ar`. -/
def siftLoop (mem : Mem) (ar0 : Nat) : Nat → Nat → List Nat → Option (List Nat)
  | 0, _, ar => some ar
  | 1, _, ar => some ar
  | k + 2, head, ar => do
    let rt := head - width
    let lf := head - width - (← lp[k]?)
    let c ← compare width cmp mem ar0 lf
    let stop ← if 0 ≤ c then (compare width cmp mem ar0 rt).map (decide <| 0 ≤ ·) else some false
    if stop then return ar
    let c ← compare width cmp mem lf rt
    if 0 ≤ c then siftLoop mem ar0 (k + 1) lf (← push ar lf)
    else siftLoop mem ar0 k rt (← push ar rt)

def sift (mem : Mem) (head pshift : Nat) : Option Mem := do
  let ar ← siftLoop width cmp lp mem head pshift head [head]
  cycle width mem ar

structure Trinkle where
  head : Nat
  p : Orders
  pshift : Nat
  trusty : Bool
  ar : List Nat

def trinkleLoop (mem : Mem) (ar0 : Nat) : Nat → Trinkle → Option Trinkle
  | 0, _ => none
  | fuel + 1, s =>
    if s.p = ⟨1, 0⟩ then some s
    else do
      let stepson := s.head - (← lp[s.pshift]?)
      if (← compare width cmp mem stepson ar0) ≤ 0 then return s
      let stop ←
        if !s.trusty ∧ 1 < s.pshift then do
          let rt := s.head - width
          let lf := s.head - width - (← lp[s.pshift - 2]?)
          if 0 ≤ (← compare width cmp mem rt stepson) then some true
          else (compare width cmp mem lf stepson).map (decide <| 0 ≤ ·)
        else some false
      if stop then return s
      let trail := pntz s.p
      trinkleLoop mem ar0 fuel
        ⟨stepson, shr s.p trail, s.pshift + trail, false, ← push s.ar stepson⟩

def trinkle (fuel : Nat) (mem : Mem) (head : Nat) (p : Orders) (pshift : Nat) (trusty : Bool) :
    Option Mem := do
  let s ← trinkleLoop width cmp lp mem head fuel ⟨head, p, pshift, trusty, [head]⟩
  if s.trusty then return mem
  let mem ← cycle width mem s.ar
  sift width cmp lp mem s.head s.pshift

structure State where
  mem : Mem
  head : Nat
  p : Orders
  pshift : Nat

/-- A round of the loop that builds the forest. `lp[-1]` is not there. -/
def growRound (fuel high : Nat) (s : State) : Option State := do
  if s.p.p0 &&& 3 = 3 then
    let mem ← sift width cmp lp s.mem s.head s.pshift
    let p := shr s.p 2
    return ⟨mem, s.head + width, { p with p0 := p.p0 ||| 1 }, s.pshift + 2⟩
  else
    let next ← if s.pshift = 0 then none else lp[s.pshift - 1]?
    let mem ← if high - s.head ≤ next then trinkle width cmp lp fuel s.mem s.head s.p s.pshift false
      else sift width cmp lp s.mem s.head s.pshift
    let p := if s.pshift = 1 then shl s.p 1 else shl s.p (s.pshift - 1)
    return ⟨mem, s.head + width, { p with p0 := p.p0 ||| 1 }, if s.pshift = 1 then 0 else 1⟩

/-- A round of the loop that takes it apart. -/
def shrinkRound (fuel : Nat) (s : State) : Option State := do
  if s.pshift ≤ 1 then
    let trail := pntz s.p
    return ⟨s.mem, s.head - width, shr s.p trail, s.pshift + trail⟩
  else
    let p := shl s.p 2
    let pshift := s.pshift - 2
    let p := shr { p with p0 := p.p0 ^^^ 7 } 1
    let mem ← trinkle width cmp lp fuel s.mem (s.head - (← lp[pshift]?) - width) p (pshift + 1) true
    let p := shl p 1
    let p := { p with p0 := p.p0 ||| 1 }
    let mem ← trinkle width cmp lp fuel mem (s.head - width) p pshift true
    return ⟨mem, s.head - width, p, pshift⟩

end

/-- The entries of `lp`. -/
def lpSize : Nat := 12 * 8

/-- The scaled Leonardo numbers, up to the first one that is not below `size`. -/
def lpLoop (width size : Nat) : Nat → List Nat → Option (List Nat)
  | 0, _ => none
  | n + 1, lp => do
    let next := ((← lp[lp.length - 2]?) + (← lp[lp.length - 1]?) + width) % 2 ^ 64
    let lp := lp ++ [next]
    if next < size then lpLoop width size n lp else some lp

def qsort (fuel base nel width : Nat) (cmp : List UInt8 → List UInt8 → Int) (mem : Mem) :
    Option Mem := do
  let size := width * nel % 2 ^ 64
  if size = 0 then return mem
  let high := base + size - width
  let lp ← lpLoop width size (lpSize - 2) [width, width]
  let s ← loopM (fun s => decide (s.head < high)) (growRound width cmp lp fuel high) fuel
    ⟨mem, base, ⟨1, 0⟩, 1⟩
  let mem ← trinkle width cmp lp fuel s.mem s.head s.p s.pshift false
  let s ← loopM (fun s => decide (s.pshift ≠ 1 ∨ s.p ≠ ⟨1, 0⟩)) (shrinkRound width cmp lp fuel)
    fuel { s with mem := mem }
  return s.mem

/-! ## Blocks of memory -/

theorem load_eq {mem : Mem} {p n : Nat} (h : ∀ j < n, (mem (p + j)).isSome) :
    load mem p n = some ((List.range n).map fun j => (mem (p + j)).getD 0) := by
  induction n generalizing p with
  | zero => rfl
  | succ n ih =>
    obtain ⟨b, hb⟩ := Option.isSome_iff_exists.1 (h 0 (by omega))
    have htail : ∀ j < n, (mem (p + 1 + j)).isSome := fun j hj => by
      rw [Nat.add_right_comm, Nat.add_assoc]
      exact h (j + 1) (by omega)
    simp only [Nat.add_zero] at hb
    simp [load, hb, ih htail, List.range_succ_eq_map, Nat.add_right_comm, Nat.add_assoc]

/-- The memory with `n` bytes from `p` on replaced. -/
def patch (mem : Mem) (p n : Nat) (v : Nat → Option UInt8) : Mem :=
  fun a => if p ≤ a ∧ a < p + n then v (a - p) else mem a

theorem store_eq {mem : Mem} {p : Nat} {bs : List UInt8}
    (h : ∀ j < bs.length, (mem (p + j)).isSome) :
    store mem p bs = some (patch mem p bs.length fun j => bs[j]?) := by
  induction bs generalizing mem p with
  | nil =>
    refine congrArg some (funext fun a => ?_)
    simp only [patch, List.length_nil]
    rw [if_neg (by omega)]
  | cons b bs ih =>
    obtain ⟨c, hc⟩ := Option.isSome_iff_exists.1 (h 0 (by simp))
    simp only [Nat.add_zero] at hc
    have htail : ∀ j < bs.length, (update mem p (some b) (p + 1 + j)).isSome := by
      intro j hj
      rw [update_of_ne (by omega), Nat.add_right_comm, Nat.add_assoc]
      exact h (j + 1) (by simp; omega)
    simp only [store, hc, Option.bind_eq_bind, Option.bind_some, ih htail]
    refine congrArg some (funext fun a => ?_)
    simp only [patch, List.length_cons]
    by_cases ha : a = p
    · subst ha
      simp
    · rw [update_of_ne ha]
      by_cases hin : p + 1 ≤ a ∧ a < p + 1 + bs.length
      · rw [if_pos hin, if_pos (by omega), show a - p = a - (p + 1) + 1 by omega,
          List.getElem?_cons_succ]
      · rw [if_neg hin, if_neg (by omega)]

theorem memcpy_eq {mem : Mem} {dst src n : Nat} (hsrc : ∀ j < n, (mem (src + j)).isSome)
    (hdst : ∀ j < n, (mem (dst + j)).isSome) :
    memcpy mem dst src n = some (patch mem dst n fun j => mem (src + j)) := by
  simp only [memcpy, load_eq hsrc, Option.bind_eq_bind, Option.bind_some]
  rw [store_eq (by simpa using hdst)]
  refine congrArg some (funext fun a => ?_)
  simp only [patch, List.length_map, List.length_range]
  split
  · next ha =>
    obtain ⟨b, hb⟩ := Option.isSome_iff_exists.1 (hsrc (a - dst) (by omega))
    simp [hb, show a - dst < n by omega]
  · rfl

/-! ## The array -/

variable {base width nel : Nat} {cmp : List UInt8 → List UInt8 → Int} {mem mem' : Mem}

def col (base width : Nat) (mem : Mem) (j i : Nat) : Option UInt8 := mem (base + i * width + j)

def elems (base width : Nat) (mem : Mem) (i : Nat) : List UInt8 :=
  (List.range width).map fun j => (col base width mem j i).getD 0

def Mapped (base width nel : Nat) (mem : Mem) : Prop :=
  ∀ i < nel, ∀ j < width, (col base width mem j i).isSome

def SameOutside (base width nel : Nat) (mem mem' : Mem) : Prop :=
  ∀ a, a < base ∨ base + nel * width ≤ a → mem' a = mem a

theorem offset_inj {i i' j j' : Nat} (hj : j < width) (hj' : j' < width)
    (h : i * width + j = i' * width + j') : i = i' ∧ j = j' := by
  have hdiv := congrArg (· / width) h
  have hmod := congrArg (· % width) h
  simp only [Nat.mul_comm _ width, Nat.mul_add_div (by omega : 0 < width),
    Nat.mul_add_mod, Nat.div_eq_of_lt hj, Nat.div_eq_of_lt hj', Nat.mod_eq_of_lt hj,
    Nat.mod_eq_of_lt hj'] at hdiv hmod
  exact ⟨by omega, hmod⟩

variable {h o l : Nat} {path : List Nat}

theorem col_patch (v : Nat → Option UInt8) (hl : o + l ≤ width) {j : Nat} (hj : j < width) :
    col base width (patch mem (base + h * width + o) l v) j =
      if o ≤ j ∧ j < o + l then update (col base width mem j) h (v (j - o))
      else col base width mem j := by
  funext i
  by_cases hi : i = h
  · subst hi
    simp only [col, patch]
    by_cases hin : o ≤ j ∧ j < o + l
    · rw [if_pos (by omega), if_pos hin, update_self]
      congr 1
      omega
    · rw [if_neg (by omega), if_neg hin]
      rfl
  · have hout : ¬ (base + h * width + o ≤ base + i * width + j ∧
        base + i * width + j < base + h * width + o + l) := by
      intro hin
      have heq : i * width + j = h * width + (base + i * width + j - (base + h * width)) := by omega
      exact hi (offset_inj hj (by omega) heq).1
    simp only [col, patch, if_neg hout]
    split
    · rw [update_of_ne hi]
      rfl
    · rfl

theorem patch_outside (v : Nat → Option UInt8) (hh : h < nel) (hl : o + l ≤ width) :
    SameOutside base width nel mem (patch mem (base + h * width + o) l v) := by
  intro a ha
  have hle : (h + 1) * width ≤ nel * width := Nat.mul_le_mul_right width hh
  rw [Nat.add_mul] at hle
  exact if_neg (by omega)

theorem patch_mapped {v : Nat → Option UInt8} (hmap : Mapped base width nel mem)
    (hl : o + l ≤ width) (hv : ∀ j < l, (v j).isSome) :
    Mapped base width nel (patch mem (base + h * width + o) l v) := by
  intro i hi j hj
  rw [col_patch v hl hj]
  split
  · by_cases hih : i = h
    · subst hih
      rw [update_self]
      exact hv _ (by omega)
    · rw [update_of_ne hih]
      exact hmap i hi j hj
  · exact hmap i hi j hj

theorem SameOutside.trans {mem'' : Mem} (h : SameOutside base width nel mem mem')
    (h' : SameOutside base width nel mem' mem'') : SameOutside base width nel mem mem'' :=
  fun a ha => (h' a ha).trans (h a ha)

/-! ### `cycle` -/

theorem cycleRound_shift {tmp : List UInt8} (hl : o + l ≤ width) (htmp : tmp.length = l)
    (hmap : Mapped base width nel mem) (hin : ∀ i ∈ h :: path, i < nel) :
    ∃ mem', cycleRound l tmp mem ((h :: path).map fun i => base + i * width + o) = some mem' ∧
      (∀ j < width, col base width mem' j = if o ≤ j ∧ j < o + l
        then shift (col base width mem j) tmp[j - o]? h path else col base width mem j) ∧
      Mapped base width nel mem' ∧ SameOutside base width nel mem mem' := by
  have hblock : ∀ {mem : Mem}, Mapped base width nel mem → ∀ i < nel, ∀ j < l,
      (mem (base + i * width + o + j)).isSome := fun hmap i hi j hj => by
    rw [Nat.add_assoc]
    exact hmap i hi (o + j) (by omega)
  induction path generalizing mem h with
  | nil =>
    have hh : h < nel := hin h (by simp)
    refine ⟨_, store_eq (by rw [htmp]; exact hblock hmap h hh), fun j hj => ?_, ?_, ?_⟩
    · rw [htmp, col_patch _ hl hj]
      rfl
    · rw [htmp]
      exact patch_mapped hmap hl fun j hj => by simp [htmp, hj]
    · rw [htmp]
      exact patch_outside _ hh hl
  | cons n path ih =>
    have hh : h < nel := hin h (by simp)
    have hn : n < nel := hin n (by simp)
    have hcopy := memcpy_eq (hblock hmap n hn) (hblock hmap h hh)
    obtain ⟨mem', hrun, hcols, hmap', hout⟩ := ih (h := n)
      (patch_mapped (h := h) hmap hl (hblock hmap n hn)) fun i hi => hin i (by simp_all)
    refine ⟨mem', ?_, fun j hj => ?_, hmap', (patch_outside _ hh hl).trans hout⟩
    · simp only [List.map_cons, cycleRound, hcopy, Option.bind_eq_bind, Option.bind_some]
      exact hrun
    · rw [hcols j hj, col_patch _ hl hj]
      split
      · next hw =>
        rw [shift]
        congr 2
        simp only [col]
        congr 1
        omega
      · rfl

/-- The bytes below `d` of each element have moved, the others have not. -/
structure Cycling (base width nel : Nat) (mem : Mem) (h : Nat) (path : List Nat) (s : Cycle) :
    Prop where
  width_le : s.width ≤ width
  ar : s.ar = (h :: path).map fun i => base + i * width + (width - s.width)
  cols : ∀ j < width, col base width s.mem j = if j < width - s.width
    then shift (col base width mem j) (col base width mem j h) h path else col base width mem j
  mapped : Mapped base width nel s.mem
  outside : SameOutside base width nel mem s.mem

theorem Cycling.body (hin : ∀ i ∈ h :: path, i < nel) {s : Cycle}
    (hs : Cycling base width nel mem h path s) (hw : s.width ≠ 0) :
    ∃ t, cycleBody s = some t ∧ Cycling base width nel mem h path t ∧ t.width < s.width := by
  obtain ⟨hle, har, hcols, hmap, hout⟩ := hs
  have hh : h < nel := hin h (by simp)
  obtain ⟨l, hl⟩ : ∃ l, l = if 256 < s.width then 256 else s.width := ⟨_, rfl⟩
  have hl' : 0 < l ∧ l ≤ s.width := by
    rw [hl]
    split <;> omega
  obtain ⟨tmp, htmp⟩ : ∃ tmp, tmp = (List.range l).map fun j =>
    (s.mem (base + h * width + (width - s.width) + j)).getD 0 := ⟨_, rfl⟩
  have hload : load s.mem (base + h * width + (width - s.width)) l = some tmp := by
    rw [htmp]
    refine load_eq fun j hj => ?_
    rw [Nat.add_assoc]
    exact hmap h hh _ (by omega)
  have hlen : tmp.length = l := by simp [htmp]
  obtain ⟨mem₁, hrun, hcols₁, hmap₁, hout₁⟩ := cycleRound_shift (o := width - s.width)
    (by omega) hlen hmap hin
  refine ⟨⟨s.width - l, mem₁, s.ar.map (· + l)⟩, ?_, ⟨?_, ?_, fun j hj => ?_, hmap₁,
    hout.trans hout₁⟩, ?_⟩
  · simp only [cycleBody, ← hl, har, List.map_cons, List.head?_cons, hload, Option.bind_eq_bind,
      Option.bind_some] at hrun ⊢
    rw [hrun]
    rfl
  · simp only
    omega
  · simp only [har, List.map_map]
    refine List.map_congr_left fun i _ => ?_
    simp only [Function.comp]
    omega
  · rw [hcols₁ j hj, hcols j hj]
    simp only
    by_cases hwin : width - s.width ≤ j ∧ j < width - s.width + l
    · rw [if_pos hwin, if_neg (by omega), if_pos (by omega)]
      congr 1
      have hcol := congrFun (hcols j hj) h
      rw [if_neg (by omega)] at hcol
      obtain ⟨b, hb⟩ := Option.isSome_iff_exists.1 (hmap h hh j hj)
      rw [← hcol, hb]
      have hbyte : s.mem (base + h * width + (width - s.width) + (j - (width - s.width))) =
          some b := by
        rw [← hb, col]
        congr 1
        omega
      simp [htmp, show j - (width - s.width) < l by omega, hbyte]
    · rw [if_neg hwin]
      congr 1
      exact propext ⟨fun _ => by omega, fun _ => by omega⟩
  · simp only
    omega

/-- The elements are those of `g`; the rest of the memory is as it was. -/
structure Moved (base width nel : Nat) (mem mem' : Mem) (g : Nat → List UInt8) : Prop where
  elems : elems base width mem' = g
  mapped : Mapped base width nel mem'
  outside : SameOutside base width nel mem mem'

theorem elems_shift (hcols : ∀ j < width, col base width mem' j =
      shift (col base width mem j) (col base width mem j h) h path) :
    elems base width mem' = shift (elems base width mem) (elems base width mem h) h path := by
  have hmoves : ∀ {F : Type} (f : Nat → F), shift f (f h) h path = f ∘ shift id h h path :=
    fun f => shift_comp f id h h path
  rw [hmoves]
  funext i
  refine List.map_congr_left fun j hj => ?_
  rw [hcols j (List.mem_range.1 hj), hmoves]
  rfl

/-- **`cycle`** moves whole elements along the path. -/
theorem cycle_shift (h : Nat) (path : List Nat) (hmap : Mapped base width nel mem)
    (hin : ∀ i ∈ h :: path, i < nel) (hlen : path.length + 1 < arSize) :
    ∃ mem', cycle width mem ((h :: path).map fun i => base + i * width) = some mem' ∧
      Moved base width nel mem mem'
        (shift (elems base width mem) (elems base width mem h) h path) := by
  cases hpath : path with
  | nil =>
    refine ⟨mem, rfl, ?_, hmap, fun _ _ => rfl⟩
    exact (update_eq_self ..).symm
  | cons n ns =>
    rw [← hpath]
    obtain ⟨t, hrun, ht, hzero⟩ := loopM_rule (P := Cycling base width nel mem h path)
      (fun s => decide (s.width ≠ 0)) cycleBody (·.width)
      (fun s hs hc => hs.body hin (by simpa using hc))
      (s := ⟨width, mem, (h :: path).map fun i => base + i * width⟩)
      ⟨le_rfl, by simp, fun j hj => by simp, hmap, fun _ _ => rfl⟩ le_rfl
    have hzero' : t.width = 0 := by simpa using hzero
    refine ⟨t.mem, ?_, elems_shift fun j hj => ?_, ht.mapped, ht.outside⟩
    · rw [cycle, if_neg (by simp [hpath]), if_pos (by simpa using hlen), hrun]
      rfl
    · rw [ht.cols j hj, if_pos (by omega)]

/-! ### `sift` -/

/-- The table has the size of every tree that fits into the array. -/
def Table (width nel : Nat) (lp : List Nat) : Prop :=
  ∀ k, leo k ≤ nel → lp[k]? = some (leo k * width)

variable {lp : List Nat}

theorem compare_eq (hmap : Mapped base width nel mem) {a b : Nat} (ha : a < nel) (hb : b < nel) :
    compare width cmp mem (base + a * width) (base + b * width) =
      some (cmp (elems base width mem a) (elems base width mem b)) := by
  simp only [compare, load_eq (hmap a ha), load_eq (hmap b hb), Option.bind_eq_bind,
    Option.bind_some]
  rfl

theorem ptr_sub {a r : Nat} (h : a ≤ r) :
    base + r * width - a * width = base + (r - a) * width := by
  have hle := Nat.mul_le_mul_right width h
  rw [Nat.sub_mul]
  omega

theorem ptr_pred {r : Nat} (h : 0 < r) : base + r * width - width = base + (r - 1) * width := by
  have heq : base + r * width - 1 * width = base + (r - 1) * width := ptr_sub h
  rwa [Nat.one_mul] at heq

variable (cmp) in
theorem siftLoop_eq (hmap : Mapped base width nel mem) (hlp : Table width nel lp) {r₀ k r : Nat}
    (ar : List Nat) (hr₀ : r₀ < nel) (hr : r < nel) (hfit : leo k ≤ r + 1)
    (hlen : ar.length + k ≤ arSize) :
    siftLoop width cmp lp mem (base + r₀ * width) k (base + r * width) ar =
      some (ar ++ (siftPath cmp (elems base width mem) (elems base width mem r₀) k r).map
        fun i => base + i * width) := by
  induction k using Nat.twoStepInduction generalizing r ar with
  | zero => simp [siftLoop, siftPath]
  | one => simp [siftLoop, siftPath]
  | more k ih ih' =>
    obtain ⟨hleo, hpos, hpos'⟩ := leo_add_two k
    have hpush : ∀ q, push ar q = some (ar ++ [q]) := fun q => if_pos (by omega)
    simp only [siftLoop, hlp k (by omega), ptr_pred (show 0 < r by omega),
      ptr_sub (show leo k ≤ r - 1 by omega), Option.bind_eq_bind, Option.bind_some, hpush,
      compare_eq hmap hr₀ (show r - 1 < nel by omega),
      compare_eq hmap hr₀ (show r - 1 - leo k < nel by omega),
      compare_eq hmap (show r - 1 - leo k < nel by omega) (show r - 1 < nel by omega)]
    rw [ih _ (by omega) (by omega) (by simp; omega), ih' _ (by omega) (by omega) (by simp; omega),
      siftPath]
    by_cases hl : 0 ≤ cmp (elems base width mem r₀) (elems base width mem (r - 1 - leo k)) <;>
      by_cases hr : 0 ≤ cmp (elems base width mem r₀) (elems base width mem (r - 1)) <;>
      by_cases hlr : 0 ≤ cmp (elems base width mem (r - 1 - leo k))
        (elems base width mem (r - 1)) <;>
      simp [hl, hr, hlr]

variable (cmp) in
theorem siftPath_length (f : Nat → List UInt8) (x : List UInt8) (k r : Nat) :
    (siftPath cmp f x k r).length ≤ k := by
  induction k using Nat.twoStepInduction generalizing r with
  | zero => simp [siftPath]
  | one => simp [siftPath]
  | more k ih ih' =>
    rw [siftPath]
    split
    · simp
    · split
      · have := ih' (r - 1 - leo k)
        simp
        omega
      · have := ih (r - 1)
        simp
        omega

variable (cmp) in
/-- **`sift`** moves an element down its tree. -/
theorem sift_eq (hmap : Mapped base width nel mem) (hlp : Table width nel lp) {k r : Nat}
    (hr : r < nel) (hfit : leo k ≤ r + 1) (hk : k < 64) :
    ∃ mem', sift width cmp lp mem (base + r * width) k = some mem' ∧
      Moved base width nel mem mem'
        (Lib.Leonardo.sift cmp (elems base width mem) (elems base width mem r) k r) := by
  have hloop := siftLoop_eq cmp hmap hlp [base + r * width] hr hr hfit (by simp [arSize]; omega)
  have hpath := siftPath_descends cmp (elems base width mem) (elems base width mem r) hfit
  have hlen := siftPath_length cmp (elems base width mem) (elems base width mem r) k r
  obtain ⟨mem', hcycle, hmoved⟩ := cycle_shift r
    (siftPath cmp (elems base width mem) (elems base width mem r) k r) hmap (fun i hi => by
      rcases List.mem_cons.1 hi with rfl | hi
      · exact hr
      · exact (hpath.1 i hi).2.trans hr) (by simp only [arSize]; omega)
  refine ⟨mem', ?_, hmoved⟩
  simp only [sift, hloop, Option.bind_eq_bind, Option.bind_some]
  exact hcycle

end SpringOs.Qsort
