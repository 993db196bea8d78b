import SpringOs.HallocRuns
import SpringOs.Lib.Bytes

/-!
Requests of any size to the heap of the root service, and `halloc_zero`.

A request is rounded up to 16 bytes and enlarged by the header, both modulo `2^64`, and compared
with the 32 bits of `slab_size`.

* **`hallocZero`**, `memset`: the bytes of a block cleared, in a memory of words;
* `halloc_refused`: a request of 4 GiB and more, up to the first of the two wraps, fails;
* `Sized`: no list is for blocks of no bytes; kept by every step (`step_sized`);
* **`halloc_right_iff`**: the requests that are served right or refused. The last 31 sizes are
  not: 16 of them round to `2^64 - 16`, which with the header is 0, and get the next block without
  taking it; 15 round to 0 and get a header with nothing behind it.
-/

namespace SpringOs.Halloc
open Kernel Lib.Word Lib.Bytes Lib.Ranges Lib.Cells Lib.Machine
open Function (update update_self update_of_ne)

/-! ## `halloc_zero` -/

/-- Byte `i` of the word at `a` is one of the `n` bytes from `addr` on. -/
def inBlock (addr n a i : Nat) : Bool := decide (u64 ((a + i : Nat) - addr) < n)

/-- `memset(addr, 0, n)` in a memory of words: those with a byte among the `n` are changed. -/
def memset (mem : Nat → Nat) (addr n a : Nat) : Nat :=
  if a % 8 = 0 ∧ (List.range 8).any (inBlock addr n a) then
    ofBytes (fun i => if inBlock addr n a i then 0 else byteOf (mem a) i) 8
  else mem a

def hallocZero (n : Nat) (h : Heap) : Nat × Heap :=
  let (addr, h) := halloc n h
  if addr ≠ 0 then (addr, { h with mem := memset h.mem addr n }) else (addr, h)

theorem memset_changed {mem : Nat → Nat} {addr n size a : Nat} (hn : n ≤ size)
    (haddr : addr % 8 = 0) (hsize : size % 8 = 0) (htop : addr + size < 2 ^ 64) (ha : a < 2 ^ 64)
    (h : memset mem addr n a ≠ mem a) : addr ≤ a ∧ a + 8 ≤ addr + size := by
  unfold memset at h
  split at h
  · rename_i hin
    obtain ⟨hword, hany⟩ := hin
    obtain ⟨i, hi, hbyte⟩ := List.any_eq_true.1 hany
    have hi8 := List.mem_range.1 hi
    simp only [inBlock, decide_eq_true_eq] at hbyte
    unfold u64 at hbyte
    omega
  · exact absurd rfl h

/-! ## Sizes of all kinds -/

/-- The size is not among the last 31, or it rounds to 0 and the region is used up. -/
def Harmless (h : Heap) (n : Nat) : Prop :=
  n + 32 ≤ 2 ^ 64 ∨ 2 ^ 64 - 16 < n ∧ h.slabSize < 16

def Lists (h : Heap) (F : Nat → List Nat) : Prop :=
  ∀ sc ∈ descriptors h.slabHashTable, Chain (fun x => h.mem (x + 8)) (h.mem (sc + 24)) (F sc)

/-- The block at `p` in the heap `h`, among the blocks `live`: `n` bytes between `base` and
`stop`, apart from every other block with its header; and clearing them changes no other word. -/
structure BlockRight (base stop : Nat) (h zeroed : Heap) (live : List Block) (p n : Nat) :
    Prop where
  inside : base ≤ p ∧ p + n ≤ stop
  apart : ∀ F, Lists h F → ∀ x ∈ headers h.slabHashTable live F,
    Extent.Apart ⟨p, n⟩ (cell slabHeaderSize h.mem x)
  cleared : ∀ a < 2 ^ 64, zeroed.mem a ≠ h.mem a →
    p ≤ a ∧ a + 8 ≤ p + h.mem (p - slabHeaderSize)

structure HallocRight (base stop : Nat) (s : Sys) (n : Nat) : Prop where
  served : (halloc n s.heap).1 ≠ 0 → BlockRight base stop (halloc n s.heap).2
    (hallocZero n s.heap).2 s.live (halloc n s.heap).1 n
  refused : (halloc n s.heap).1 = 0 → (halloc n s.heap).2 = s.heap

/-- The program asks for any size that is harmless, frees its own blocks and writes into
them. -/
def ProperSize (s : Sys) : Op → Prop
  | .halloc n => n < 2 ^ 64 ∧ Harmless s.heap n
  | op => Proper s op

theorem rounded_mod (n : Nat) (hn : n ≠ 0) : rounded n = (n + 15) % 2 ^ 64 / 16 * 16 := by
  rw [rounded, if_neg hn]
  exact alignUp_mod n 4

section
variable {base stop : Nat} {s s' : Sys} {F : Nat → List Nat}

/-- The region, as far as `slab_size` reaches. -/
def reach (base stop : Nat) : Nat := base + (stop - base) % 4294967296

variable {sc n top left : Nat} {mem mem' : Nat → Nat} {table : Fin 8 → List Nat} {live : List Block}
  {b : Block} {h : Heap}

theorem Sound.list_size (hs : Sound base (reach base stop) s F) {x : Nat}
    (hsc : sc ∈ descriptors s.heap.slabHashTable) (hx : x ∈ F sc) : s.heap.mem x < 2 ^ 32 := by
  have hin := (Partition.cells hs).inside x (free_mem hsc hx)
  have hroom := Partition.room hs
  unfold reach at hroom
  omega

theorem Sound.slabSize_lt (hs : Sound base (reach base stop) s F) : s.heap.slabSize < 2 ^ 32 := by
  have hlow := Partition.low hs
  have hroom := Partition.room hs
  unfold reach at hroom
  omega

/-- No list is for blocks smaller than `halloc` makes them. -/
def Sized (h : Heap) : Prop := ∀ sc ∈ descriptors h.slabHashTable, slabMinDataSize ≤ h.mem sc

theorem hallocFromHashTable_none (hs : Sound base stop s F) {size : Nat}
    (hnone : ∀ sc ∈ descriptors s.heap.slabHashTable, ∀ x ∈ F sc, s.heap.mem x ≠ size) :
    hallocFromHashTable size s.heap = (0, s.heap) := by
  rw [hallocFromHashTable]
  cases hf : s.heap.find size with
  | none => rfl
  | some sc =>
    obtain ⟨hsc, hsize⟩ := find_some hf
    have hc := Partition.cache hs _ sc hsc
    have hz : s.heap.mem (sc + 24) = 0 := by
      by_contra hz
      obtain ⟨xs, hxs, -⟩ := hc.chain.eq_cons hz
      have hmem : s.heap.mem (sc + 24) ∈ F sc := hxs ▸ List.mem_cons_self
      exact hnone sc (mem_descriptors.2 ⟨_, hsc⟩) _ hmem ((hc.size _ hmem).trans hsize)
    exact if_pos hz

/-- A harmless request of 4 GiB or more fails. -/
theorem halloc_refused (hs : Sound base (reach base stop) s F) (hz : Sized s.heap) (hn : 2 ^ 32 ≤ n)
    (hlt : n < 2 ^ 64) (hok : Harmless s.heap n) : halloc n s.heap = (0, s.heap) := by
  have hmod := rounded_mod n (by omega)
  have hslab := hs.slabSize_lt
  have hsize : rounded n = 0 ∧ s.heap.slabSize < 16 ∨
      2 ^ 32 ≤ rounded n ∧ rounded n + 32 ≤ 2 ^ 64 := by
    unfold Harmless at hok
    omega
  have htable : hallocFromHashTable (rounded n) s.heap = (0, s.heap) := by
    refine hallocFromHashTable_none hs fun sc hsc x hx => ?_
    have hsmall := hs.list_size hsc hx
    obtain ⟨i, hi⟩ := mem_descriptors.1 hsc
    have hbig := hz sc hsc
    rw [← (Partition.cache hs i sc hi).size x hx] at hbig
    unfold slabMinDataSize at hbig
    omega
  have hheap : hallocFromSlabHeap (rounded n) s.heap = (0, s.heap) := by
    rw [hallocFromSlabHeap]
    refine if_pos ?_
    unfold u64 slabHeaderSize
    omega
  rw [halloc, hallocSize, htable]
  exact hheap

/-! ## Runs -/

theorem Partition.size_kept (h : Partition base stop mem top left table live F) {t o : Nat}
    (hsc : sc ∈ descriptors table) (ht : t ∈ headers table live F) (ho : o < slabHeaderSize + mem t)
    (hne : sc - 16 ≠ t ∨ 16 ≠ o) (v : Nat) : update mem' (t + o) v sc = mem' sc := by
  obtain ⟨i, hi⟩ := mem_descriptors.1 hsc
  have hc := h.cache i sc hi
  have hword : 16 < slabHeaderSize + mem (sc - 16) := by
    rw [hc.header]
    decide
  have hkeep : update mem' (t + o) v (sc - 16 + 16) = mem' (sc - 16 + 16) :=
    h.cells.update_ne ht (descriptor_mem hsc) ho hword hne v
  rwa [Nat.sub_add_cancel hc.above] at hkeep

theorem Partition.head_kept (h : Partition base stop mem top left table live F) {sc' : Nat}
    (hsc : sc ∈ descriptors table) (hsc' : sc' ∈ descriptors table) (v : Nat) :
    update mem' (sc' + 24) v sc = mem' sc := by
  obtain ⟨i, hi⟩ := mem_descriptors.1 hsc'
  have hc := h.cache i sc' hi
  have habove := hc.above
  rw [show sc' + 24 = sc' - 16 + 40 by omega]
  exact h.size_kept hsc (descriptor_mem hsc') (by rw [hc.header]; decide) (.inr (by decide)) v

theorem carved_sized (hs : Sound base stop s F) (hz : Sized s.heap) (size : Nat) :
    Sized (s.heap.carved size) := by
  intro sc hsc
  have hin := ((Partition.cells hs).inside _ (descriptor_mem hsc)).2
  obtain ⟨i, hi⟩ := mem_descriptors.1 hsc
  have hc := Partition.cache hs i sc hi
  have habove := hc.above
  rw [hc.header] at hin
  unfold slabHeaderSize slabCacheSize at hin
  dsimp only [Heap.carved]
  rw [update_of_ne (by omega), update_of_ne (by omega)]
  exact hz sc hsc

theorem halloc_sized (hs : Sound base stop s F) (hstop : stop < 2 ^ 64) (hz : Sized s.heap)
    (hn : n < 2 ^ 32) : Sized (halloc n s.heap).2 := by
  rcases halloc_cases hs hstop hn with hc | ⟨sc, x, xs, hf, hx, hc⟩ | ⟨hroom, hc⟩
  · rw [hc]
    exact hz
  · rw [hc]
    intro sc' hsc'
    have hsc := mem_descriptors.2 ⟨_, (find_some hf).1⟩
    have hxH : x ∈ headers s.heap.slabHashTable s.live F :=
      free_mem hsc (hx ▸ List.mem_cons_self)
    dsimp only
    rw [Partition.size_kept hs hsc' hxH (header_lt (by decide) _) (.inr (by decide)),
      Partition.head_kept hs hsc' hsc]
    exact hz sc' hsc'
  · rw [hc]
    exact carved_sized hs hz _

theorem hfree_sized (hs : Sound base stop s F) (hstop : stop < 2 ^ 64) (hz : Sized s.heap)
    (hb : b ∈ s.live) (hr : hfree (b.sh + slabHeaderSize) s.heap = .ok h) : Sized h := by
  have hbH : b.sh ∈ headers s.heap.slabHashTable s.live F := live_mem hb
  obtain ⟨-, hsize, hn⟩ := Partition.live hs b hb
  rcases hfree_cases hs hstop hb with ⟨sc, hf, hc⟩ | ⟨-, hc⟩ | ⟨-, hroom, hc⟩
  · rw [hc] at hr
    cases hr
    intro sc' hsc'
    have hsc := mem_descriptors.2 ⟨_, (find_some hf).1⟩
    dsimp only
    rw [Partition.head_kept hs hsc' hsc,
      Partition.size_kept hs hsc' hbH (header_lt (by decide) _) (.inr (by decide))]
    exact hz sc' hsc'
  · rw [hc] at hr
    cases hr
  · rw [hc] at hr
    cases hr
    have hcarve := Partition.carve hs (n := slabCacheSize) (by decide) hroom
    have hold := carved_sized hs hz slabCacheSize
    have hlive : b ∈ ⟨s.heap.slabBase, slabCacheSize⟩ :: s.live := List.mem_cons_of_mem _ hb
    have hsame : (s.heap.carved slabCacheSize).mem b.sh = rounded b.n := (hcarve.live b hlive).2.1
    have hdH : s.heap.slabBase ∈ headers s.heap.slabHashTable
        (⟨s.heap.slabBase, slabCacheSize⟩ :: s.live) F := live_mem List.mem_cons_self
    have hbH' : b.sh ∈ headers s.heap.slabHashTable
        (⟨s.heap.slabBase, slabCacheSize⟩ :: s.live) F := live_mem hlive
    have hlt : ∀ o < 48,
        o < slabHeaderSize + (s.heap.carved slabCacheSize).mem s.heap.slabBase := by
      intro o ho
      dsimp only [Heap.carved]
      rw [update_self]
      exact ho
    have hinside := (Partition.cells hs).inside b.sh hbH
    intro sc' hsc'
    obtain ⟨j, hj⟩ := mem_descriptors.1 hsc'
    dsimp only
    rcases mem_appended hj with hj | ⟨-, rfl⟩
    · have hd := mem_descriptors.2 ⟨j, hj⟩
      have hne := hcarve.live_ne_descriptor List.mem_cons_self hd
      rw [hcarve.size_kept hd hbH' (header_lt (by decide) _) (.inr (by decide)),
        hcarve.size_kept (o := 40) hd hdH (hlt 40 (by decide)) (.inl hne.symm),
        hcarve.size_kept (o := 16) hd hdH (hlt 16 (by decide)) (.inl hne.symm)]
      exact hold sc' hd
    · unfold slabHeaderSize at hinside
      rw [update_of_ne (by omega), update_of_ne (by omega), update_self, hsame]
      exact (rounded_eq hn).2.1

theorem store_sized (hs : Sound base stop s F) (hz : Sized s.heap) {addr : Nat} (val : Nat)
    (hb : b ∈ s.live) (hlow : b.sh + slabHeaderSize ≤ addr)
    (hhigh : addr < b.sh + slabHeaderSize + b.n) :
    Sized { s.heap with mem := update s.heap.mem (addr / 8 * 8) val } := by
  obtain ⟨-, hsize, hn⟩ := Partition.live hs b hb
  have hal := (Partition.aligned hs b.sh (live_mem hb)).1
  have hle := (rounded_eq hn).1
  unfold slabHeaderSize at hlow hhigh
  have hword : addr / 8 * 8 = b.sh + (addr / 8 * 8 - b.sh) := by omega
  intro sc hsc
  dsimp only
  rw [hword, Partition.size_kept hs hsc (live_mem hb) (by unfold slabHeaderSize; omega)
    (.inl (Partition.live_ne_descriptor hs hb hsc).symm)]
  exact hz sc hsc

def Inv (base stop : Nat) (s : Sys) : Prop :=
  (∃ F, Sound base (reach base stop) s F) ∧ Sized s.heap

theorem step_inv (hstop : reach base stop < 2 ^ 64) (h : Inv base stop s) {op : Op}
    (hop : ProperSize s op) (hstep : step s op = some s') : Inv base stop s' := by
  obtain ⟨⟨F, hs⟩, hz⟩ := h
  cases op with
  | halloc n =>
    obtain ⟨hlt, hok⟩ := hop
    by_cases hn : n < 2 ^ 32
    · refine ⟨step_sound hs hstop (show Proper s (.halloc n) from hn) hstep, ?_⟩
      cases hstep
      exact halloc_sized hs hstop hz hn
    · have hnone := halloc_refused hs hz (Nat.le_of_not_lt hn) hlt hok
      rw [step, hnone] at hstep
      cases hstep
      exact ⟨⟨F, hs⟩, hz⟩
  | hfree addr =>
    refine ⟨step_sound hs hstop (show Proper s (.hfree addr) from hop) hstep, ?_⟩
    obtain ⟨b, hb, rfl⟩ := hop
    obtain ⟨h, hr, rfl⟩ := Option.map_eq_some_iff.1 hstep
    exact hfree_sized hs hstop hz hb (ok_of_toOption hr)
  | store addr val =>
    refine ⟨step_sound hs hstop (show Proper s (.store addr val) from hop) hstep, ?_⟩
    obtain ⟨b, hb, hlow, hhigh⟩ := hop
    cases hstep
    exact store_sized hs hz val hb hlow hhigh

theorem hallocInit_inv {h0 : Heap} (hstop : stop < 2 ^ 64)
    (hinit : hallocInit base stop h = (0, h0)) :
    Inv base stop ⟨h0, []⟩ ∧ base ≤ stop ∧ stop % 4096 = 0 := by
  have hs := hallocInit_sound hstop hinit
  unfold hallocInit at hinit
  split at hinit
  · exact absurd (congrArg Prod.fst hinit) (show ¬ -einval = 0 by decide)
  case isFalse hc =>
    simp only [not_or, not_not, not_lt] at hc
    obtain ⟨hle, -, haligned⟩ := hc
    rw [isAligned_page (by omega), decide_eq_true_iff] at haligned
    cases hinit
    refine ⟨⟨⟨_, hs.low, Nat.le_refl _, hs.bump, hs.cells, hs.aligned, hs.live, hs.cache⟩, ?_⟩, hle,
      haligned⟩
    intro sc hsc
    simp [descriptors] at hsc

/-! ## One request -/

/-- The hash table has a block, which has a header, or the heap is asked. -/
theorem halloc_source (n : Nat) (h : Heap) :
    16 ≤ (halloc n h).1 ∨ halloc n h = hallocFromSlabHeap (rounded n) h := by
  have htable : hallocFromHashTable (rounded n) h = (0, h) ∨
      16 ≤ (hallocFromHashTable (rounded n) h).1 := by
    unfold hallocFromHashTable
    split
    · exact .inl rfl
    · split
      · exact .inl rfl
      · exact .inr (Nat.le_add_left _ _)
  rcases htable with hnone | hsome
  · right
    rw [halloc, hallocSize, hnone]
    rfl
  · left
    have hne : (hallocFromHashTable (rounded n) h).1 ≠ 0 := by omega
    have heq : halloc n h = hallocFromHashTable (rounded n) h := if_neg hne
    rwa [heq]

theorem halloc_ge (n : Nat) (h : Heap) : (halloc n h).1 = 0 ∨ 16 ≤ (halloc n h).1 := by
  rcases halloc_source n h with hge | heq
  · exact .inr hge
  · rw [heq, hallocFromSlabHeap]
    simp only
    split
    · exact .inl rfl
    · exact .inr (Nat.le_add_left _ _)

/-- A request that is not harmless always gets an answer. -/
theorem halloc_wraps (hlt : n < 2 ^ 64) (hbad : ¬ Harmless h n) : (halloc n h).1 ≠ 0 := by
  rcases halloc_source n h with hge | heq
  · omega
  · unfold Harmless at hbad
    have hmod := rounded_mod n (by omega)
    have hfits : ¬ h.slabSize < u64 (rounded n + slabHeaderSize) := by
      unfold u64 slabHeaderSize
      omega
    rw [heq, hallocFromSlabHeap]
    simp only
    rw [if_neg hfits]
    exact Nat.succ_ne_zero _

theorem lists_headers (hs : Sound base stop s F) {G : Nat → List Nat} (hG : Lists s.heap G)
    (live : List Block) :
    headers s.heap.slabHashTable live G = headers s.heap.slabHashTable live F := by
  have hsame : (descriptors s.heap.slabHashTable).flatMap G =
      (descriptors s.heap.slabHashTable).flatMap F := by
    apply List.flatMap_congr
    intro sc hsc
    obtain ⟨i, hi⟩ := mem_descriptors.1 hsc
    exact (hG sc hsc).unique (Partition.cache hs i sc hi).chain
  rw [headers, headers, hsame]

theorem halloc_served (hs : Sound base (reach base stop) s F) (hle : base ≤ stop)
    (hstop : stop < 2 ^ 64) (hn : n < 2 ^ 32) : HallocRight base stop s n := by
  have hreach : reach base stop ≤ stop := by
    have := Nat.mod_le (stop - base) 4294967296
    unfold reach
    omega
  obtain ⟨p, h, hr⟩ : ∃ p h, halloc n s.heap = (p, h) := ⟨_, _, rfl⟩
  have hge := halloc_ge n s.heap
  obtain ⟨F', hs'⟩ := halloc_sound hs (by omega) hn hr
  have hzero : p ≠ 0 → hallocZero n s.heap = (p, { h with mem := memset h.mem p n }) := by
    intro hp
    rw [hallocZero, hr]
    exact if_pos hp
  constructor
  · rw [hr] at hge ⊢
    intro hp
    replace hge : 16 ≤ p := hge.resolve_left hp
    rw [if_neg hp] at hs'
    have hlive := List.mem_cons_self (a := (⟨p - slabHeaderSize, n⟩ : Block)) (l := s.live)
    obtain ⟨hlow, hhigh⟩ := (Partition.cells hs').inside (p - slabHeaderSize) (live_mem hlive)
    obtain ⟨hal, halsize⟩ := Partition.aligned hs' (p - slabHeaderSize) (live_mem hlive)
    obtain ⟨-, hsize, -⟩ := Partition.live hs' _ hlive
    have hroom := Partition.room hs'
    have hfit := (rounded_eq hn).1
    simp only at hlow hhigh hal halsize hsize hroom
    have hback : p - slabHeaderSize + slabHeaderSize = p := Nat.sub_add_cancel hge
    unfold slabHeaderSize at *
    refine ⟨⟨by omega, by omega⟩, ?_, ?_⟩
    · intro G hG x hx
      rw [lists_headers hs' hG] at hx
      have hapart := (List.pairwise_cons.1 (Partition.cells hs').apart).1 _
        (List.mem_map_of_mem hx)
      simp only [cell, Extent.Apart, slabHeaderSize] at hapart ⊢
      omega
    · intro a ha hne
      rw [hzero hp] at hne
      change p ≤ a ∧ a + 8 ≤ p + h.mem (p - 16)
      rw [hsize]
      exact memset_changed hfit (by omega) (by omega) (by omega) ha hne
  · intro hp
    rcases halloc_cases hs (by omega) hn with hc | ⟨sc, x, xs, -, -, hc⟩ | ⟨-, hc⟩
    · rw [hc]
    · rw [hc] at hp
      exact absurd hp (Nat.succ_ne_zero _)
    · rw [hc] at hp
      exact absurd hp (Nat.succ_ne_zero _)

/-- **Requests of any size**, after any calls of `halloc` with harmless sizes, of `hfree` for
blocks in use, and writes into blocks in use: the block is right, or nothing is returned and
nothing changes, exactly for the harmless sizes. -/
theorem halloc_right_iff {base stop : Nat} {h h0 : Heap} (hstop : stop < 2 ^ 64)
    (hinit : hallocInit base stop h = (0, h0)) {s : Sys}
    (hrun : Steps step ProperSize ⟨h0, []⟩ s) (n : BitVec 64) :
    HallocRight base stop s n.toNat ↔ Harmless s.heap n.toNat := by
  obtain ⟨hstart, hle, hpage⟩ := hallocInit_inv hstop hinit
  have hreach : reach base stop < 2 ^ 64 := by
    have := Nat.mod_le (stop - base) 4294967296
    unfold reach
    omega
  obtain ⟨⟨F, hs⟩, hz⟩ := hrun.invariant (P := Inv base stop) hstart
    fun t op u ht hop hu => step_inv hreach ht hop hu
  have hlt := n.isLt
  by_cases hok : Harmless s.heap n.toNat
  · refine iff_of_true ?_ hok
    by_cases hn : n.toNat < 2 ^ 32
    · exact halloc_served hs hle hstop hn
    · have hnone := halloc_refused hs hz (Nat.le_of_not_lt hn) hlt hok
      exact ⟨fun hp => absurd (congrArg Prod.fst hnone) hp, fun _ => congrArg Prod.snd hnone⟩
  · refine iff_of_false (fun hright => ?_) hok
    have hp := halloc_wraps hlt hok
    have hge := (halloc_ge n.toNat s.heap).resolve_left hp
    have hin := (hright.served hp).inside.2
    unfold Harmless at hok
    omega

/-- Of a region of one page, 100 bytes: after a block of 100 bytes was taken and freed, and one
of 24 bytes taken that is still in use. -/
theorem halloc_right_small :
    ∃ s, Steps step ProperSize ⟨(hallocInit 4096 8192 blank).2, []⟩ s ∧ s.live = [⟨4224, 24⟩] ∧
      (halloc 100 s.heap).1 = 4112 ∧ HallocRight 4096 8192 s 100 := by
  have hrun : Steps step ProperSize ⟨(hallocInit 4096 8192 blank).2, []⟩ _ :=
    ((Steps.refl.tail (.halloc 100) ⟨by decide, .inl (by decide)⟩ rfl).tail (.halloc 24)
      ⟨by decide, .inl (by decide)⟩ rfl).tail (.hfree 4112)
      ⟨⟨4096, 100⟩, List.mem_cons_of_mem _ List.mem_cons_self, rfl⟩ rfl
  exact ⟨_, hrun, rfl, rfl, (halloc_right_iff (by decide) rfl hrun 100#64).2 (.inl (by decide))⟩

/-- `2^64 - 1` bytes are served by a block of none, and `2^64 - 16` bytes twice by the same
block. -/
theorem halloc_wraps_around :
    let h := (hallocInit 4096 8192 blank).2
    (halloc (2 ^ 64 - 1) h).1 = 4112 ∧ (halloc (2 ^ 64 - 1) h).2.mem 4096 = 0 ∧
      (halloc (2 ^ 64 - 16) h).1 = 4112 ∧ (halloc 16 (halloc (2 ^ 64 - 16) h).2).1 = 4112 ∧
      ¬ HallocRight 4096 8192 ⟨h, []⟩ (2 ^ 64 - 1) := by
  refine ⟨by decide +kernel, by decide +kernel, by decide +kernel, by decide +kernel,
    fun hright => ?_⟩
  have hp : (halloc (2 ^ 64 - 1) (hallocInit 4096 8192 blank).2).1 = 4112 := by decide +kernel
  have hin := (hright.served (by rw [hp]; decide)).inside.2
  rw [hp] at hin
  omega

end

end SpringOs.Halloc
