import SpringOs.PageAlloc

/-!
Scans over the set bits of a bitmap: `bitmap_find_next_1` started again behind each bit it found,
as `page_free` does, and `for_each_cpu` of `cpumask.h`.

* `bitmapFindNext1_firstIn`: the search returns the first set bit, from any start;
* `setBits_of_firstIn`: so one search splits the first bit off those still to come;
* `scanBits_eq`, `pageFreeScan_eq`, `cpuLoop_eq`: each of the scans goes through the set bits, in
  increasing order, and ends;
* **`bitmap_find_next_1_scan`**: all of it together.
-/

namespace SpringOs.Bitmap
open Lib.Word Kernel PageAlloc

/-! ## The scans -/

/-- The positions visited by a scan that starts again behind each bit it found; `none` when the
fuel runs out. -/
def scanBits (b : BitmapT) (size : Nat) : Nat → Nat → Option (List Nat)
  | 0, _ => none
  | fuel + 1, start =>
    let pos := bitmapFindNext1 b size start
    if pos = -1 then some []
    else (scanBits b size fuel (pos.toNat + 1)).map (pos.toNat :: ·)

/-- The loop of `bitmap_find_first_1`; the first argument counts the words left. -/
def findFirst1Loop (b : BitmapT) : Nat → Nat → Int → Int
  | 0, _, _ => -1
  | n + 1, i, pos =>
    if b i ≠ 0#64 then i32 (pos + (b i).ctz.toNat)
    else findFirst1Loop b n (i + 1) (i32 (pos + 64))

def bitmapFindFirst1 (b : BitmapT) (size : Nat) : Int := findFirst1Loop b (size / 8) 0 0

/-- `CONFIG_NR_CPUS`. -/
def configNrCpus : Nat := 4

def cpumaskFirst (mask : BitmapT) : Int := bitmapFindFirst1 mask (bitmapSize configNrCpus)

def cpumaskNext (n : Int) (mask : BitmapT) : Int :=
  bitmapFindNext1 mask (bitmapSize configNrCpus) (u64 (i32 (n + 1)))

/-- The rounds of `for_each_cpu`, from `cpu` on. -/
def cpuLoop (mask : BitmapT) : Nat → Int → Option (List Nat)
  | 0, _ => none
  | fuel + 1, cpu =>
    if 0 ≤ cpu ∧ cpu < configNrCpus then
      (cpuLoop mask fuel (cpumaskNext cpu mask)).map (cpu.toNat :: ·)
    else some []

/-- `for_each_cpu`: the CPUs its body is run for. -/
def forEachCpu (mask : BitmapT) : Option (List Nat) :=
  cpuLoop mask (configNrCpus + 1) (cpumaskFirst mask)

/-- Whether the block of the descriptor at `pos` contains `ptr`. -/
def blockHolds (ps : PageSection) (ptr pos : Nat) : Bool :=
  (ps.pages pos).pa ≠ 0 &&
    decide (ptov (ps.pages pos).pa ≤ ptr ∧
      ptr < u64 (ptov (ps.pages pos).pa + i32 ((ps.pages pos).count * 4096)))

/-! ## The set bits -/

/-- The set bits from `lo` below `hi`, in increasing order. -/
def setBits (b : BitmapT) (lo hi : Nat) : List Nat := (List.range' lo (hi - lo)).filter (getBit b)

variable {b : BitmapT} {lo hi size : Nat}

theorem mem_setBits {p : Nat} : p ∈ setBits b lo hi ↔ lo ≤ p ∧ p < hi ∧ getBit b p = true := by
  rw [setBits, List.mem_filter, List.mem_range'_1]
  constructor
  · rintro ⟨⟨hlo, hhi⟩, hbit⟩
    exact ⟨hlo, by omega, hbit⟩
  · rintro ⟨hlo, hhi, hbit⟩
    exact ⟨⟨hlo, by omega⟩, hbit⟩

theorem setBits_eq_nil (h : ∀ p, lo ≤ p → p < hi → ¬ getBit b p = true) : setBits b lo hi = [] := by
  refine List.eq_nil_iff_forall_not_mem.2 fun p hp => ?_
  obtain ⟨hlo, hhi, hbit⟩ := mem_setBits.1 hp
  exact h p hlo hhi hbit

theorem setBits_skip {mid : Nat} (hlo : lo ≤ mid) (hhi : mid ≤ hi)
    (h : ∀ p, lo ≤ p → p < mid → ¬ getBit b p = true) : setBits b lo hi = setBits b mid hi := by
  have hsplit : List.range' lo (hi - lo) =
      List.range' lo (mid - lo) ++ List.range' mid (hi - mid) := by
    have happend := List.range'_append_1 (s := lo) (m := mid - lo) (n := hi - mid)
    rw [show lo + (mid - lo) = mid by omega,
      show mid - lo + (hi - mid) = hi - lo by omega] at happend
    exact happend.symm
  rw [setBits, hsplit, List.filter_append]
  change setBits b lo mid ++ setBits b mid hi = _
  rw [setBits_eq_nil h, List.nil_append]

theorem setBits_cons {p : Nat} (hp : p < hi) (hbit : getBit b p = true) :
    setBits b p hi = p :: setBits b (p + 1) hi := by
  rw [setBits, show hi - p = hi - (p + 1) + 1 by omega, List.range'_succ,
    List.filter_cons_of_pos hbit]
  rfl

/-- One search splits the first bit off. -/
theorem setBits_of_firstIn {r : Int} (h : FirstIn (fun p => getBit b p = true) lo hi r) :
    (r = -1 ∧ setBits b lo hi = []) ∨
      ∃ p : Nat, r = p ∧ lo ≤ p ∧ p < hi ∧ setBits b lo hi = p :: setBits b (p + 1) hi := by
  rcases h with ⟨hr, hnone⟩ | ⟨p, hr, hlo, hhi, hbit, hmin⟩
  · exact .inl ⟨hr, setBits_eq_nil hnone⟩
  · refine .inr ⟨p, hr, hlo, hhi, ?_⟩
    rw [setBits_skip hlo (Nat.le_of_lt hhi) hmin, setBits_cons hhi hbit]

theorem bitmapFindNext1_past (b : BitmapT) {start : Nat} (h : size / 8 ≤ start / 64) :
    bitmapFindNext1 b size start = -1 := by
  rw [bitmapFindNext1, Nat.sub_eq_zero_of_le h]
  rfl

/-- **The search for a set bit** from any start. -/
theorem bitmapFindNext1_firstIn (b : BitmapT) (hsize : size / 8 * 64 < 2 ^ 31) (start : Nat) :
    FirstIn (fun p => getBit b p = true) start (size / 8 * 64) (bitmapFindNext1 b size start) := by
  by_cases hstart : start < 2 ^ 31
  · exact bitmapFindNext1_first b size start hsize hstart
  · exact .inl ⟨bitmapFindNext1_past b (by omega), fun p hlo hhi => by omega⟩

/-! ## What the scans visit -/

theorem scanBits_eq (b : BitmapT) (hsize : size / 8 * 64 < 2 ^ 31) (fuel start : Nat)
    (hpos : 0 < fuel) (hfuel : size / 8 * 64 < fuel + start) :
    scanBits b size fuel start = some (setBits b start (size / 8 * 64)) := by
  induction fuel generalizing start with
  | zero => exact absurd hpos (Nat.lt_irrefl 0)
  | succ fuel ih =>
    rw [scanBits]
    rcases setBits_of_firstIn (bitmapFindNext1_firstIn b hsize start) with
      ⟨hr, hnil⟩ | ⟨p, hr, hlo, hhi, hcons⟩
    · rw [hr, hnil]
      rfl
    · rw [hr, hcons, if_neg (by omega), Int.toNat_natCast, ih (p + 1) (by omega) (by omega)]
      rfl

/-- `page_free` goes through the set bits and stops at the block that holds the pointer. -/
theorem pageFreeScan_eq (ps : PageSection) (ptr : Nat)
    (hsize : bitmapSize ps.nrPages / 8 * 64 < 2 ^ 31) (fuel start : Nat) (hpos : 0 < fuel)
    (hfuel : bitmapSize ps.nrPages / 8 * 64 < fuel + start) :
    pageFreeScan ps ptr fuel start =
      (setBits ps.bitmap start (bitmapSize ps.nrPages / 8 * 64)).find? (blockHolds ps ptr) := by
  induction fuel generalizing start with
  | zero => exact absurd hpos (Nat.lt_irrefl 0)
  | succ fuel ih =>
    rw [pageFreeScan]
    rcases setBits_of_firstIn (bitmapFindNext1_firstIn ps.bitmap hsize start) with
      ⟨hr, hnil⟩ | ⟨p, hr, hlo, hhi, hcons⟩
    · rw [hr, hnil]
      rfl
    · rw [hr, hcons, List.find?_cons, if_neg (by omega), Int.toNat_natCast,
        ih (p + 1) (by omega) (by omega)]
      by_cases hpa : (ps.pages p).pa = 0
      · simp [blockHolds, hpa]
      · by_cases hin : ptov (ps.pages p).pa ≤ ptr ∧
            ptr < u64 (ptov (ps.pages p).pa + i32 ((ps.pages p).count * 4096))
        · rw [if_neg hpa, if_pos hin]
          simp [blockHolds, hpa, hin]
        · rw [if_neg hpa, if_neg hin]
          simp [blockHolds, hpa, hin]

theorem findFirst1Loop_eq (b : BitmapT) (n i : Nat) (hn : (i + n) * 64 < 2 ^ 31) :
    findFirst1Loop b n i (i * 64 : Nat) = findNext1Loop b 0 0 n i (i * 64 : Nat) := by
  induction n generalizing i with
  | zero => rfl
  | succ n ih =>
    have hnext : i32 (((i * 64 : Nat) : Int) + 64) = ((i + 1) * 64 : Nat) := by
      rw [i32_of_lt (by omega) (by omega)]
      omega
    have hword : i32 (((i + 1 : Nat) : Int) * 64) = ((i + 1) * 64 : Nat) := by
      rw [i32_of_lt (by omega) (by omega)]
      omega
    rw [findFirst1Loop, findNext1Loop, hnext, hword, ih (i + 1) (by omega)]
    by_cases hzero : b i = 0#64
    · simp [hzero]
    · simp [hzero]

theorem bitmapFindFirst1_eq (b : BitmapT) (hsize : size / 8 * 64 < 2 ^ 31) :
    bitmapFindFirst1 b size = bitmapFindNext1 b size 0 :=
  findFirst1Loop_eq b (size / 8) 0 (by omega)

theorem cpumask_firstIn (mask : BitmapT) (start : Nat) :
    FirstIn (fun p => getBit mask p = true) start 64
      (bitmapFindNext1 mask (bitmapSize configNrCpus) start) := by
  have hsize : bitmapSize configNrCpus / 8 * 64 < 2 ^ 31 := by decide
  exact bitmapFindNext1_firstIn mask hsize start

/-- The rounds of `for_each_cpu` from the CPU that a search has found. -/
theorem cpuLoop_eq (mask : BitmapT) (fuel lo : Nat) {cpu : Int}
    (h : FirstIn (fun p => getBit mask p = true) lo 64 cpu) (hlo : lo ≤ configNrCpus)
    (hfuel : configNrCpus < fuel + lo) :
    cpuLoop mask fuel cpu = some (setBits mask lo configNrCpus) := by
  unfold configNrCpus at hlo hfuel
  induction fuel generalizing lo cpu with
  | zero => omega
  | succ fuel ih =>
    rw [cpuLoop]
    unfold configNrCpus at ih ⊢
    rcases h with ⟨hr, hnone⟩ | ⟨p, hr, hle, hhi, hbit, hmin⟩
    · rw [hr, if_neg (by omega), setBits_eq_nil fun q hq hlt => hnone q hq (by omega)]
    · by_cases hp : p < 4
      · have hstart : u64 (i32 ((p : Int) + 1)) = p + 1 := by
          rw [i32_of_lt (by omega) (by omega)]
          unfold u64
          omega
        have hnext := cpumask_firstIn mask (p + 1)
        rw [hr, if_pos (by omega), cpumaskNext, hstart, ih (p + 1) hnext (by omega) (by omega),
          setBits_skip hle (Nat.le_of_lt hp) hmin, setBits_cons hp hbit]
        rfl
      · rw [hr, if_neg (by omega), setBits_eq_nil fun q hq hlt => hmin q hq (by omega)]

theorem forEachCpu_eq (mask : BitmapT) : forEachCpu mask = some (setBits mask 0 configNrCpus) := by
  have hfirst := cpumask_firstIn mask 0
  rw [← bitmapFindFirst1_eq mask (by decide)] at hfirst
  exact cpuLoop_eq mask _ 0 hfirst (Nat.zero_le _) (Nat.lt_succ_self _)

/-- **Scans over set bits.** The search returns the first set bit from any start, or `-1`; a scan
that starts again behind each bit visits the set bits in increasing order and ends. So do
`for_each_cpu`, for the CPUs there are, and `page_free`, up to the block it looks for. -/
theorem bitmap_find_next_1_scan (b : BitmapT) (size : Nat) (hsize : size / 8 * 64 < 2 ^ 31) :
    (∀ start, FirstIn (fun p => getBit b p = true) start (size / 8 * 64)
      (bitmapFindNext1 b size start)) ∧
    (∀ start, scanBits b size (size / 8 * 64 + 1) start =
      some (setBits b start (size / 8 * 64))) ∧
    (∀ mask, forEachCpu mask = some (setBits mask 0 configNrCpus)) ∧
    ∀ ps ptr, ps.bitmap = b → bitmapSize ps.nrPages = size →
      pageFreeScan ps ptr (size / 8 * 64 + 1) 0 =
        (setBits b 0 (size / 8 * 64)).find? (blockHolds ps ptr) := by
  refine ⟨bitmapFindNext1_firstIn b hsize, fun start => ?_, forEachCpu_eq, ?_⟩
  · exact scanBits_eq b hsize _ start (Nat.succ_pos _) (by omega)
  · rintro ps ptr rfl rfl
    exact pageFreeScan_eq ps ptr hsize _ 0 (Nat.succ_pos _) (Nat.lt_succ_self _)

/-- Bits 3 and 70 of two words. -/
theorem bitmap_find_next_1_scan_two_words :
    scanBits (fun i => if i = 0 then 8#64 else 64#64) 16 129 0 = some [3, 70] := by
  have hscan := (bitmap_find_next_1_scan (fun i => if i = 0 then 8#64 else 64#64) 16
    (by decide)).2.1 0
  rw [hscan]
  decide +kernel

end SpringOs.Bitmap
