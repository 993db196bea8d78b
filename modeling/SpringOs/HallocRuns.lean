import SpringOs.Halloc

/-!
Runs of a program on the heap of the root service.

* `halloc_cases`, `hfree_cases`: all that a call can do to a sound heap;
* `step_sound`: every step of the program keeps the heap sound;
* `heap_partition_iff`: **the blocks in use, the free ones and the descriptors never
  overlap**, and `hfree` of a block in use stops exactly when the list for its size does
  not exist and the region has no room for the descriptor.
-/

namespace SpringOs.Halloc
open Kernel Lib.Word Lib.Ranges Lib.Cells Lib.Machine
open Function (update update_self)

/-! ## What the functions do -/

section
variable {base stop : Nat} {s s' : Sys} {F : Nat → List Nat}

theorem find_some {h : Heap} {size sc : Nat} (hf : h.find size = some sc) :
    sc ∈ h.slabHashTable (hash size) ∧ h.mem sc = size :=
  ⟨List.mem_of_find?_eq_some hf, by simpa using List.find?_some hf⟩

theorem find_none {h : Heap} {size : Nat} :
    h.find size = none ↔ ∀ sc ∈ h.slabHashTable (hash size), h.mem sc ≠ size := by
  simp [Heap.find]

/-- The heap after a block of `size` bytes was carved. -/
def Heap.carved (h : Heap) (size : Nat) : Heap :=
  { h with
    mem := update (update h.mem (h.slabBase + 8) slabMagic) h.slabBase size
    slabBase := h.slabBase + (size + 16)
    slabSize := h.slabSize - (size + 16) }

theorem hallocFromSlabHeap_eq {h : Heap} {size : Nat} (hsize : size < 2 ^ 33)
    (hroom : h.slabBase + h.slabSize < 2 ^ 64) :
    hallocFromSlabHeap size h =
      if h.slabSize < size + 16 then (0, h) else (h.slabBase + 16, h.carved size) := by
  have h16 : u64 (size + slabHeaderSize) = size + 16 := by
    unfold u64 slabHeaderSize
    omega
  have hback : u64 (((size + 16 : Nat) : Int) - slabHeaderSize) = size := by
    unfold u64 slabHeaderSize
    omega
  unfold hallocFromSlabHeap
  simp only [h16, hback]
  split
  · rfl
  · have hbase : u64 (h.slabBase + ((size + 16 : Nat) : Int)) = h.slabBase + (size + 16) := by
      unfold u64
      omega
    rw [hbase]
    rfl

section

variable (hs : Sound base stop s F) (hstop : stop < 2 ^ 64)
include hs hstop

theorem Sound.lt : s.heap.slabBase + s.heap.slabSize < 2 ^ 64 := by
  have := Partition.room hs
  omega

/-- `halloc` fails, takes the first block of the list for the size, or carves a block. -/
theorem halloc_cases {n : Nat} (hn : n < 2 ^ 32) :
    halloc n s.heap = (0, s.heap) ∨
    (∃ sc x xs, s.heap.find (rounded n) = some sc ∧ F sc = x :: xs ∧
      halloc n s.heap = (x + 16, { s.heap with
        mem := update (update s.heap.mem (sc + 24) (s.heap.mem (x + 8))) (x + 8) slabMagic })) ∨
    rounded n + 16 ≤ s.heap.slabSize ∧
      halloc n s.heap = (s.heap.slabBase + 16, s.heap.carved (rounded n)) := by
  have hheap := hallocFromSlabHeap_eq (rounded_eq hn).2.2.2 (hs.lt hstop)
  -- when the table has nothing, the heap is asked
  have hcarve : hallocFromHashTable (rounded n) s.heap = (0, s.heap) →
      halloc n s.heap = (0, s.heap) ∨ rounded n + 16 ≤ s.heap.slabSize ∧
        halloc n s.heap = (s.heap.slabBase + 16, s.heap.carved (rounded n)) := by
    intro hnone
    simp only [halloc, hallocSize, hnone, if_pos]
    rw [hheap]
    split
    · exact Or.inl rfl
    · exact Or.inr ⟨by omega, rfl⟩
  cases hf : s.heap.find (rounded n) with
  | none =>
    have hnone : hallocFromHashTable (rounded n) s.heap = (0, s.heap) := by
      rw [hallocFromHashTable, hf]
    exact (hcarve hnone).imp_right Or.inr
  | some sc =>
    by_cases hz : s.heap.mem (sc + 24) = 0
    · have hnone : hallocFromHashTable (rounded n) s.heap = (0, s.heap) := by
        rw [hallocFromHashTable, hf]
        exact if_pos hz
      exact (hcarve hnone).imp_right Or.inr
    · have hchain := (Partition.cache hs _ sc (find_some hf).1).chain
      obtain ⟨xs, hxs, _⟩ := hchain.eq_cons hz
      refine Or.inr (Or.inl ⟨sc, _, xs, rfl, hxs, ?_⟩)
      have hsome : hallocFromHashTable (rounded n) s.heap = (s.heap.mem (sc + 24) + 16,
          { s.heap with mem := update (update s.heap.mem (sc + 24)
            (s.heap.mem (s.heap.mem (sc + 24) + 8))) (s.heap.mem (sc + 24) + 8) slabMagic }) := by
        rw [hallocFromHashTable, hf]
        exact if_neg hz
      rw [halloc, hallocSize, hsome]
      exact if_neg (Nat.succ_ne_zero _)

/-- The descriptor for blocks of `size` bytes exists, or there is room to make it. -/
def Roomy (h : Heap) (size : Nat) : Prop :=
  (∃ sc ∈ h.slabHashTable (hash size), h.mem sc = size) ∨
    slabCacheSize + slabHeaderSize ≤ h.slabSize

/-- `hfree` of a block in use puts it on the list of its size, stops, or makes the list. -/
theorem hfree_cases {b : Block} (hb : b ∈ s.live) :
    (∃ sc, s.heap.find (rounded b.n) = some sc ∧
      hfree (b.sh + slabHeaderSize) s.heap = .ok { s.heap with
        mem := update (update s.heap.mem (b.sh + 8) (s.heap.mem (sc + 24))) (sc + 24) b.sh }) ∨
    (¬ Roomy s.heap (rounded b.n) ∧
      hfree (b.sh + slabHeaderSize) s.heap = .error (.assertion .hfree)) ∨
    (s.heap.find (rounded b.n) = none ∧ slabCacheSize + 16 ≤ s.heap.slabSize ∧
      hfree (b.sh + slabHeaderSize) s.heap = .ok { s.heap.carved slabCacheSize with
        mem := update (update (update (s.heap.carved slabCacheSize).mem (s.heap.slabBase + 16)
          ((s.heap.carved slabCacheSize).mem b.sh)) (s.heap.slabBase + 16 + 24) b.sh) (b.sh + 8) 0
        slabHashTable := update s.heap.slabHashTable (hash (rounded b.n))
          (s.heap.slabHashTable (hash (rounded b.n)) ++ [s.heap.slabBase + 16]) }) := by
  obtain ⟨hmagic, hsize, hn⟩ := Partition.live hs b hb
  have hin := (Partition.cells hs).inside b.sh (live_mem hb)
  have hlt := hs.lt hstop
  have hsh : u64 (((b.sh + slabHeaderSize : Nat) : Int) - slabHeaderSize) = b.sh := by
    unfold u64
    omega
  have hge := (rounded_eq hn).2.1
  have hok : ¬ (s.heap.mem (b.sh + 8) ≠ slabMagic ∨ s.heap.mem b.sh < slabMinDataSize) := by
    unfold slabMinDataSize
    omega
  have hheap := hallocFromSlabHeap_eq (show slabCacheSize < 2 ^ 33 by decide) hlt
  simp only [hfree, hsh]
  rw [if_neg hok, hsize]
  cases hf : s.heap.find (rounded b.n) with
  | some sc => exact Or.inl ⟨sc, rfl, rfl⟩
  | none =>
    rw [find_none] at hf
    dsimp only
    rw [hheap]
    split
    case isTrue hfull =>
      refine Or.inr (Or.inl ⟨?_, rfl⟩)
      rintro (⟨sc, hsc, he⟩ | hroom)
      · exact hf sc hsc he
      · unfold slabHeaderSize at hroom
        omega
    case isFalse hfit =>
      refine Or.inr (Or.inr ⟨rfl, by omega, ?_⟩)
      exact if_neg (Nat.succ_ne_zero _)

/-! ## Runs -/

theorem halloc_sound {n p : Nat} {h : Heap} (hn : n < 2 ^ 32) (hr : halloc n s.heap = (p, h)) :
    ∃ F', Sound base stop
      ⟨h, if p = 0 then s.live else ⟨p - slabHeaderSize, n⟩ :: s.live⟩ F' := by
  rcases halloc_cases hs hstop hn with hc | ⟨sc, x, xs, hf, hx, hc⟩ | ⟨hroom, hc⟩
  · rw [hc] at hr
    cases hr
    exact ⟨F, hs⟩
  · rw [hc] at hr
    cases hr
    obtain ⟨hsc, hsize⟩ := find_some hf
    exact ⟨update F sc xs, Partition.pop hs hsc hn hsize hx⟩
  · rw [hc] at hr
    cases hr
    exact ⟨F, Partition.carve hs hn hroom⟩

theorem hfree_sound {b : Block} {h : Heap} (hb : b ∈ s.live) {live' : List Block}
    (hp : s.live.Perm (b :: live')) (hr : hfree (b.sh + slabHeaderSize) s.heap = .ok h) :
    ∃ F', Sound base stop ⟨h, live'⟩ F' := by
  obtain ⟨_, hsize, hn⟩ := Partition.live hs b hb
  rcases hfree_cases hs hstop hb with ⟨sc, hf, hc⟩ | ⟨_, hc⟩ | ⟨_, hroom, hc⟩
  · rw [hc] at hr
    cases hr
    obtain ⟨hsc, hsc'⟩ := find_some hf
    exact ⟨_, Partition.push hs hsc hp (hsc'.trans hsize.symm)⟩
  · rw [hc] at hr
    cases hr
  · rw [hc] at hr
    cases hr
    have h32 : rounded slabCacheSize = slabCacheSize := rfl
    have hcarve := Partition.carve hs (n := slabCacheSize) (by decide) (h32.symm ▸ hroom)
    rw [h32] at hcarve
    obtain ⟨_, hsize', _⟩ := hcarve.live b (List.mem_cons_of_mem _ hb)
    have hlink := hcarve.link (update_self ..) hp
    rw [congrArg hash hsize'] at hlink
    exact ⟨_, hlink⟩

theorem step_sound {op : Op} (hop : Proper s op) (hstep : step s op = some s') :
    ∃ F', Sound base stop s' F' := by
  cases op with
  | halloc n =>
    cases hstep
    exact halloc_sound hs hstop hop rfl
  | hfree addr =>
    obtain ⟨b, hb, rfl⟩ := hop
    obtain ⟨h, hr, rfl⟩ := Option.map_eq_some_iff.1 hstep
    -- the block erased is the only one with this header
    obtain ⟨b', l₁, l₂, _, hb', hl, herase⟩ :=
      List.exists_of_eraseP (p := fun c => c.sh + slabHeaderSize = b.sh + slabHeaderSize) hb
        (by simp)
    have hsh : b'.sh = b.sh := by simpa using hb'
    have hb'l : b' ∈ s.live := hl ▸ List.mem_append_right _ List.mem_cons_self
    rw [herase]
    apply hfree_sound hs hstop hb'l
    · rw [hl]
      exact List.perm_middle
    · rw [hsh]
      exact ok_of_toOption hr
  | store addr v =>
    obtain ⟨b, hb, hlow, hhigh⟩ := hop
    obtain ⟨_, hsize, hn⟩ := Partition.live hs b hb
    have hal := (Partition.aligned hs b.sh (live_mem hb)).1
    have hle := (rounded_eq hn).1
    unfold slabHeaderSize at hlow hhigh
    cases hstep
    have hword : addr / 8 * 8 = b.sh + (addr / 8 * 8 - b.sh) := by omega
    refine ⟨F, ?_⟩
    rw [hword]
    exact Partition.store hs hb (by omega) (by omega) v

end

theorem hallocInit_sound {h h0 : Heap} (hstop : stop < 2 ^ 64)
    (hinit : hallocInit base stop h = (0, h0)) : Sound base stop ⟨h0, []⟩ fun _ => [] := by
  unfold hallocInit at hinit
  split at hinit
  · exact absurd (congrArg Prod.fst hinit) (show ¬ -einval = 0 by decide)
  case isFalse hc =>
    simp only [not_or, not_not, not_lt] at hc
    obtain ⟨hle, hbase, _⟩ := hc
    rw [isAligned_page (by omega), decide_eq_true_iff] at hbase
    cases hinit
    have hnil : headers (fun _ => []) [] (fun _ => []) = [] := by
      simp [headers, descriptors]
    constructor
    · exact le_rfl
    · have := Nat.mod_le (stop - base) 4294967296
      show base + (stop - base) % 4294967296 ≤ stop
      omega
    · show base % 16 = 0
      omega
    · show Carved slabHeaderSize base base h.mem (headers (fun _ => []) [] fun _ => [])
      rw [hnil]
      exact Carved.nil
    · show ∀ x ∈ headers (fun _ => []) [] fun _ => [], _
      rw [hnil]
      simp
    · intro b hb
      cases hb
    · intro i sc hsc
      cases hsc

theorem halloc_reuse (hs : Sound base stop s F) (hstop : stop < 2 ^ 64) {n x : Nat} {h : Heap}
    (hn : n < 2 ^ 32) (hr : halloc n s.heap = (x + slabHeaderSize, h))
    (hx : x ∈ (descriptors s.heap.slabHashTable).flatMap F) : s.heap.mem x = rounded n := by
  rcases halloc_cases hs hstop hn with hc | ⟨sc, y, ys, hf, hy, hc⟩ | ⟨_, hc⟩
  · rw [hc] at hr
    cases hr
  · rw [hc] at hr
    obtain rfl : y = x := Nat.add_right_cancel (congrArg Prod.fst hr)
    obtain ⟨hsc, hsize⟩ := find_some hf
    rw [← hsize]
    exact (Partition.cache hs _ sc hsc).size y (hy ▸ List.mem_cons_self)
  · -- a carved block lies above all blocks of the lists
    rw [hc] at hr
    obtain rfl : s.heap.slabBase = x := Nat.add_right_cancel (congrArg Prod.fst hr)
    obtain ⟨sc, hd, hx⟩ := List.mem_flatMap.1 hx
    have hin := ((Partition.cells hs).inside _ (free_mem hd hx)).2
    unfold slabHeaderSize at hin
    omega

theorem hfree_stops_iff (hs : Sound base stop s F) (hstop : stop < 2 ^ 64) {b : Block}
    (hb : b ∈ s.live) :
    hfree (b.sh + slabHeaderSize) s.heap = .error (.assertion .hfree) ↔
      ¬ Roomy s.heap (rounded b.n) := by
  rcases hfree_cases hs hstop hb with ⟨sc, hf, hc⟩ | ⟨hfull, hc⟩ | ⟨_, hroom, hc⟩
  · have hroomy : Roomy s.heap (rounded b.n) := Or.inl ⟨sc, find_some hf⟩
    simp [hc, hroomy]
  · simp [hc, hfull]
  · have hroomy : Roomy s.heap (rounded b.n) := Or.inr hroom
    simp [hc, hroomy]

/-- **The heap of the root service**, after any calls of `halloc`, of `hfree` for blocks in
use, and writes into blocks in use. There are lists `F`, those the descriptors head, such
that the blocks in use, the blocks on the lists and the descriptors, each with its header,
do not overlap, are aligned and lie between `base` and `stop`. The header of a block in use
has the magic word and the size of its request, rounded up; a block from a list goes to a
request that is rounded up to the same size; and `hfree` of a block in use stops at its
assertion exactly when there is no list for the size and no room for one. -/
theorem heap_partition_iff {base stop : Nat} {h h0 : Heap} (hstop : stop < 2 ^ 64)
    (hinit : hallocInit base stop h = (0, h0)) {s : Sys}
    (hrun : Steps step Proper ⟨h0, []⟩ s) :
    ∃ F : Nat → List Nat,
      (∀ sc ∈ descriptors s.heap.slabHashTable,
        Chain (fun x => s.heap.mem (x + 8)) (s.heap.mem (sc + 24)) (F sc) ∧
          slabHeaderSize ≤ sc ∧ s.heap.mem (sc - slabHeaderSize) = slabCacheSize) ∧
      ((headers s.heap.slabHashTable s.live F).map (cell slabHeaderSize s.heap.mem)).Pairwise
        Extent.Apart ∧
      (∀ x ∈ headers s.heap.slabHashTable s.live F, x % 16 = 0 ∧ s.heap.mem x % 16 = 0 ∧
        base ≤ x ∧ x + (slabHeaderSize + s.heap.mem x) ≤ stop) ∧
      (∀ b ∈ s.live, s.heap.mem (b.sh + 8) = slabMagic ∧ s.heap.mem b.sh = rounded b.n ∧
        b.n ≤ s.heap.mem b.sh) ∧
      (∀ n x h', n < 2 ^ 32 → halloc n s.heap = (x + slabHeaderSize, h') →
        x ∈ (descriptors s.heap.slabHashTable).flatMap F → s.heap.mem x = rounded n) ∧
      ∀ b ∈ s.live, hfree (b.sh + slabHeaderSize) s.heap = .error (.assertion .hfree) ↔
        ¬ Roomy s.heap (rounded b.n) := by
  obtain ⟨F, hs⟩ := hrun.invariant (P := fun s => ∃ F, Sound base stop s F)
    ⟨_, hallocInit_sound hstop hinit⟩ fun t op u ⟨F, ht⟩ hop hu => step_sound ht hstop hop hu
  refine ⟨F, ?_, (Partition.cells hs).apart, ?_, ?_, ?_, ?_⟩
  · intro sc hd
    obtain ⟨i, hsc⟩ := mem_descriptors.1 hd
    have hc := Partition.cache hs i sc hsc
    exact ⟨hc.chain, hc.above, hc.header⟩
  · intro x hx
    obtain ⟨hal, hsize⟩ := Partition.aligned hs x hx
    obtain ⟨hlow, hhigh⟩ := (Partition.cells hs).inside x hx
    have hroom := Partition.room hs
    exact ⟨hal, hsize, hlow, by omega⟩
  · intro b hb
    obtain ⟨hmagic, hsize, hn⟩ := Partition.live hs b hb
    exact ⟨hmagic, hsize, hsize ▸ (rounded_eq hn).1⟩
  · intro n x h' hn hr hx
    exact halloc_reuse hs hstop hn hr hx
  · intro b hb
    exact hfree_stops_iff hs hstop hb

/-- The heap before `halloc_init`, with cleared memory. -/
def blank : Heap := ⟨fun _ => 0, 0, 0, 0, fun _ => []⟩

/-- Two blocks in a region of one page, the first freed again. -/
theorem heap_partition_iff_two_blocks :
    ∃ s, Steps step Proper ⟨(hallocInit 4096 8192 blank).2, []⟩ s ∧ s.live = [⟨4224, 24⟩] ∧
      (hfree 4240 s.heap = .error (.assertion .hfree) ↔ ¬ Roomy s.heap (rounded 24)) := by
  have hrun : Steps step Proper ⟨(hallocInit 4096 8192 blank).2, []⟩ _ :=
    ((Steps.refl.tail (.halloc 100) (show 100 < 2 ^ 32 by decide) rfl).tail (.halloc 24)
      (show 24 < 2 ^ 32 by decide) rfl).tail (.hfree 4112)
      ⟨⟨4096, 100⟩, List.mem_cons_of_mem _ List.mem_cons_self, rfl⟩ rfl
  have hinit : hallocInit 4096 8192 blank = (0, (hallocInit 4096 8192 blank).2) := rfl
  obtain ⟨_, _, _, _, _, _, hfree⟩ := heap_partition_iff (by decide) hinit hrun
  exact ⟨_, hrun, rfl, hfree ⟨4224, 24⟩ List.mem_cons_self⟩

/-- The only block takes all but 16 bytes of the region: freeing it stops the service. -/
theorem hfree_stops_when_full :
    (hallocInit 4096 8192 blank).1 = 0 ∧
      (halloc 4064 (hallocInit 4096 8192 blank).2).1 = 4112 ∧
      hfree 4112 (halloc 4064 (hallocInit 4096 8192 blank).2).2 = .error (.assertion .hfree) :=
  ⟨rfl, rfl, rfl⟩

end

end SpringOs.Halloc
