import Mathlib.Data.List.Perm.Basic
import Mathlib.Data.List.FinRange
import SpringOs.Kernel
import SpringOs.Lib.Cells
import SpringOs.Lib.Machine

/-!
The heap of the root service, `halloc.c`: blocks carved from a region, freed blocks kept on
one list per size, the lists found through a hash table.

The memory is a map from addresses to 64-bit words, so the magic word of a block in use and
the link of a free one share their place as in the source's `union`. The list of the
descriptors of a bucket is kept as a list.

* **`halloc`**, **`hfree`**, **`hallocInit`**: the functions;
* `Sys`, `step`: a program that allocates, frees its blocks and writes into them;
* `Partition`: the blocks in use, the free ones and the descriptors, apart from each other;
* `Partition.store`, `.carve`, `.pop`, `.push`, `.link`: each change of the memory keeps it.
-/

namespace SpringOs.Halloc
open Kernel Lib.Word Lib.Cells Lib.Machine
open Function (onFun update update_self update_of_ne update_comm)

variable {n d o : Nat} {i : Fin 8} {l T : List Nat}

/-! ## The heap -/

def slabMinDataSize : Nat := 16
def slabHeaderSize : Nat := 16
def slabMagic : Nat := 0xdeadbeef

/-- `sizeof(struct slab_cache)`. -/
def slabCacheSize : Nat := 32

/-- A `slab_header` at `sh` has its size at `sh`, its magic word or link at `sh + 8`; a
`slab_cache` at `sc` has its size at `sc`, its list head at `sc + 24`. -/
structure Heap where
  mem : Nat → Nat
  slabBase : Nat
  slabEnd : Nat
  slabSize : Nat
  slabHashTable : Fin 8 → List Nat

def hash (size : Nat) : Fin 8 := Fin.ofNat 8 (size >>> 4)

/-- The descriptor the loops over a bucket stop at. -/
def Heap.find (h : Heap) (size : Nat) : Option Nat :=
  (h.slabHashTable (hash size)).find? fun sc => h.mem sc = size

def hallocFromHashTable (size : Nat) (h : Heap) : Nat × Heap :=
  match h.find size with
  | none => (0, h)
  | some sc =>
    if h.mem (sc + 24) = 0 then (0, h)
    else
      let sh := h.mem (sc + 24)
      let mem := update h.mem (sc + 24) (h.mem (sh + 8))
      (sh + slabHeaderSize, { h with mem := update mem (sh + 8) slabMagic })

def hallocFromSlabHeap (size : Nat) (h : Heap) : Nat × Heap :=
  let size := u64 (size + slabHeaderSize)
  if h.slabSize < size then (0, h)
  else
    let sh := h.slabBase
    let mem := update h.mem (sh + 8) slabMagic
    (sh + slabHeaderSize, { h with
      mem := update mem sh (u64 (size - slabHeaderSize))
      slabBase := u64 (h.slabBase + size)
      slabSize := h.slabSize - size })

/-- `__halloc`. -/
def hallocSize (size : Nat) (h : Heap) : Nat × Heap :=
  let (mem, h) := hallocFromHashTable size h
  if mem = 0 then hallocFromSlabHeap size h else (mem, h)

/-- The size `halloc` looks for. -/
def rounded (n : Nat) : Nat :=
  if n = 0 then slabMinDataSize else alignUp n slabMinDataSize

def halloc (n : Nat) (h : Heap) : Nat × Heap := hallocSize (rounded n) h

def hfree (addr : Nat) (h : Heap) : Except Fault Heap :=
  let sh := u64 (addr - slabHeaderSize)
  if h.mem (sh + 8) ≠ slabMagic ∨ h.mem sh < slabMinDataSize then .error (.assertion .hfree)
  else
    match h.find (h.mem sh) with
    | some sc =>
      let mem := update h.mem (sh + 8) (h.mem (sc + 24))
      .ok { h with mem := update mem (sc + 24) sh }
    | none =>
      let idx := hash (h.mem sh)
      let (sc, h) := hallocFromSlabHeap slabCacheSize h
      if sc = 0 then .error (.assertion .hfree)
      else
        let mem := update (update h.mem sc (h.mem sh)) (sc + 24) sh
        .ok { h with
          mem := update mem (sh + 8) 0
          slabHashTable := update h.slabHashTable idx (h.slabHashTable idx ++ [sc]) }

def hallocInit (base stop : Nat) (h : Heap) : Int × Heap :=
  if stop < base ∨ ¬ isAligned base 4096 ∨ ¬ isAligned stop 4096 then (-einval, h)
  else
    (0, { h with
      slabBase := base
      slabEnd := stop
      slabSize := (stop - base) % 4294967296
      slabHashTable := fun _ => [] })

theorem rounded_eq (hn : n < 2 ^ 32) :
    n ≤ rounded n ∧ 16 ≤ rounded n ∧ rounded n % 16 = 0 ∧ rounded n < 2 ^ 33 := by
  unfold rounded slabMinDataSize
  split
  · omega
  · have hb := alignUp_bounds (a := n) (k := 4) (by omega)
    simp only [Nat.reducePow] at hb
    omega

/-! ## A program that uses the heap -/

/-- A block in use: its header's address, and the bytes asked for. The program was given
the address behind the header. -/
structure Block where
  sh : Nat
  n : Nat
  deriving DecidableEq, Repr

structure Sys where
  heap : Heap
  live : List Block

inductive Op
  | halloc (n : Nat)
  | hfree (addr : Nat)
  | store (addr val : Nat)

/-- A store changes the word its address lies in. -/
def step (s : Sys) : Op → Option Sys
  | .halloc n =>
    let (p, heap) := halloc n s.heap
    some ⟨heap, if p = 0 then s.live else ⟨p - slabHeaderSize, n⟩ :: s.live⟩
  | .hfree addr =>
    (hfree addr s.heap).toOption.map fun heap =>
      ⟨heap, s.live.eraseP fun b => b.sh + slabHeaderSize = addr⟩
  | .store addr val =>
    some ⟨{ s.heap with mem := update s.heap.mem (addr / 8 * 8) val }, s.live⟩

/-- The program asks for less than 4 GiB, frees its own blocks and writes into them. -/
def Proper (s : Sys) : Op → Prop
  | .halloc n => n < 2 ^ 32
  | .hfree addr => ∃ b ∈ s.live, addr = b.sh + slabHeaderSize
  | .store addr _ => ∃ b ∈ s.live,
    b.sh + slabHeaderSize ≤ addr ∧ addr < b.sh + slabHeaderSize + b.n

/-! ## The partition of the heap -/

def descriptors (table : Fin 8 → List Nat) : List Nat := (List.finRange 8).flatMap table

/-- The headers of the blocks in use, of the blocks on the free lists `F` and of the
descriptors. -/
def headers (table : Fin 8 → List Nat) (live : List Block) (F : Nat → List Nat) : List Nat :=
  live.map Block.sh ++
    ((descriptors table).flatMap F ++ (descriptors table).map (· - slabHeaderSize))

def LiveOk (mem : Nat → Nat) (b : Block) : Prop :=
  mem (b.sh + 8) = slabMagic ∧ mem b.sh = rounded b.n ∧ b.n < 2 ^ 32

/-- The descriptor at `sc` of bucket `i` heads the list `l` of blocks of its size. -/
structure CacheOk (mem : Nat → Nat) (i : Fin 8) (sc : Nat) (l : List Nat) : Prop where
  above : 16 ≤ sc
  header : mem (sc - 16) = slabCacheSize
  bucket : hash (mem sc) = i
  chain : Chain (fun x => mem (x + 8)) (mem (sc + 24)) l
  size : ∀ x ∈ l, mem x = mem sc

/-- The state of the heap whose next block is carved at `top`, with `left` bytes to go. The
free lists are `F`, by descriptor. -/
structure Partition (base stop : Nat) (mem : Nat → Nat) (top left : Nat)
    (table : Fin 8 → List Nat) (live : List Block) (F : Nat → List Nat) : Prop where
  low : base ≤ top
  room : top + left ≤ stop
  bump : top % 16 = 0
  cells : Carved slabHeaderSize base top mem (headers table live F)
  aligned : ∀ x ∈ headers table live F, x % 16 = 0 ∧ mem x % 16 = 0
  live : ∀ b ∈ live, LiveOk mem b
  cache : ∀ i, ∀ sc ∈ table i, CacheOk mem i sc (F sc)

/-- **The state of the heap**, with the free lists `F`. -/
def Sound (base stop : Nat) (s : Sys) (F : Nat → List Nat) : Prop :=
  Partition base stop s.heap.mem s.heap.slabBase s.heap.slabSize s.heap.slabHashTable s.live F

variable {table : Fin 8 → List Nat} {sc x : Nat} {mem : Nat → Nat}

theorem mem_descriptors : sc ∈ descriptors table ↔ ∃ i, sc ∈ table i := by
  simp [descriptors]

/-! A bucket with a descriptor more. -/

theorem mem_appended {j : Fin 8} (h : sc ∈ update table i (table i ++ [d]) j) :
    sc ∈ table j ∨ j = i ∧ sc = d := by
  by_cases hj : j = i
  · subst hj
    rw [update_self, List.mem_append, List.mem_singleton] at h
    exact h.imp id fun hsc => ⟨rfl, hsc⟩
  · rw [update_of_ne hj] at h
    exact .inl h

theorem descriptors_appended (table : Fin 8 → List Nat) (i : Fin 8) (d : Nat) :
    (descriptors (update table i (table i ++ [d]))).Perm (d :: descriptors table) := by
  have hp := flatMap_update (f := table) (List.nodup_finRange 8) (List.mem_finRange i)
    (table i ++ [d])
  apply List.perm_iff_count.2
  intro a
  have hcount := hp.count_eq a
  simp only [descriptors, List.count_append, List.count_cons, List.count_nil] at hcount ⊢
  omega

theorem CacheOk.congr {mem' : Nat → Nat} (h : CacheOk mem i sc l)
    (hd : ∀ o < 48, mem' (sc - 16 + o) = mem (sc - 16 + o))
    (hl : ∀ x ∈ l, ∀ o < 16, mem' (x + o) = mem (x + o)) : CacheOk mem' i sc l := by
  have habove := h.above
  have h16 := hd 16 (by decide)
  have h40 := hd 40 (by decide)
  rw [Nat.sub_add_cancel habove] at h16
  rw [show sc - 16 + 40 = sc + 24 by omega] at h40
  constructor
  · exact habove
  · exact (hd 0 (by decide)).trans h.header
  · rw [h16]
    exact h.bucket
  · rw [h40]
    exact h.chain.congr fun x hx => hl x hx 8 (by decide)
  · intro x hx
    rw [h16, ← h.size x hx]
    exact hl x hx 0 (by decide)

/-- The list a free block is put before; a block at address `0` ends it. -/
def pushed (x : Nat) (l : List Nat) : List Nat := if x = 0 then [] else x :: l

theorem pushed_perm (x : Nat) (l : List Nat) : ∃ L, (x :: l).Perm (pushed x l ++ L) := by
  unfold pushed
  split
  · exact ⟨x :: l, List.Perm.refl _⟩
  · exact ⟨[], by rw [List.append_nil]⟩

theorem mem_pushed {y : Nat} (hy : y ∈ pushed x l) : y = x ∨ y ∈ l := by
  unfold pushed at hy
  split at hy
  · cases hy
  · exact List.mem_cons.1 hy

theorem chain_pushed {next : Nat → Nat} (h : Chain next (next x) l) :
    Chain next x (pushed x l) := by
  unfold pushed
  split
  · assumption
  · exact ⟨rfl, by assumption, h⟩

theorem cacheOk_pushed (hheader : mem d = slabCacheSize) (hsize : mem (d + 16) = mem x)
    (hhead : mem (d + 16 + 24) = x) (hlink : mem (x + 8) = 0) :
    CacheOk mem (hash (mem x)) (d + 16) (pushed x []) where
  above := Nat.le_add_left 16 d
  header := by rwa [Nat.add_sub_cancel]
  bucket := by rw [hsize]
  chain := by
    rw [hhead]
    exact chain_pushed hlink
  size y hy := by
    rcases mem_pushed hy with rfl | hy
    · exact hsize.symm
    · cases hy

section
variable {base stop top left : Nat} {mem mem' : Nat → Nat} {table table' : Fin 8 → List Nat}
  {live live' : List Block} {F F' : Nat → List Nat} {b : Block} {sc sc' x : Nat}

theorem header_lt (ho : o < 16) (n : Nat) : o < slabHeaderSize + n :=
  Nat.lt_add_right n ho

theorem live_mem (hb : b ∈ live) : b.sh ∈ headers table live F :=
  List.mem_append_left _ (List.mem_map_of_mem hb)

theorem live_mem_of (hT : ∀ t ∈ T, ∃ b ∈ live, b.sh = t) : ∀ t ∈ T, t ∈ headers table live F := by
  intro t ht
  obtain ⟨b, hb, rfl⟩ := hT t ht
  exact live_mem hb

theorem free_mem (hsc : sc ∈ descriptors table) (hx : x ∈ F sc) : x ∈ headers table live F :=
  List.mem_append_right _ (List.mem_append_left _ (List.mem_flatMap.2 ⟨sc, hsc, hx⟩))

theorem descriptor_mem (hsc : sc ∈ descriptors table) : sc - 16 ∈ headers table live F :=
  List.mem_append_right _ (List.mem_append_right _
    (List.mem_map_of_mem (f := (· - slabHeaderSize)) hsc))

namespace Partition

/-! The headers are pairwise different. -/

section

variable (h : Partition base stop mem top left table live F)
include h

theorem nodup :
    (live.map Block.sh).Nodup ∧ ((descriptors table).flatMap F).Nodup ∧
      (descriptors table).Nodup := by
  have hn := h.cells.nodup (by decide)
  rw [headers, List.nodup_append, List.nodup_append] at hn
  exact ⟨hn.1, hn.2.1.1, hn.2.1.2.1.of_map _⟩

theorem live_ne_free (hb : b ∈ live) (hsc : sc ∈ descriptors table) (hx : x ∈ F sc) : b.sh ≠ x := by
  have hn := h.cells.nodup (by decide)
  rw [headers, List.nodup_append] at hn
  exact hn.2.2 _ (List.mem_map_of_mem hb) _
    (List.mem_append_left _ (List.mem_flatMap.2 ⟨sc, hsc, hx⟩))

theorem live_ne_descriptor (hb : b ∈ live) (hsc : sc ∈ descriptors table) : b.sh ≠ sc - 16 := by
  have hn := h.cells.nodup (by decide)
  rw [headers, List.nodup_append] at hn
  exact hn.2.2 _ (List.mem_map_of_mem hb) _
    (List.mem_append_right _ (List.mem_map_of_mem (f := (· - slabHeaderSize)) hsc))

theorem free_ne_descriptor (hsc : sc ∈ descriptors table) (hx : x ∈ F sc)
    (hsc' : sc' ∈ descriptors table) : x ≠ sc' - 16 := by
  have hn := h.cells.nodup (by decide)
  rw [headers, List.nodup_append, List.nodup_append] at hn
  exact hn.2.1.2.2 _ (List.mem_flatMap.2 ⟨sc, hsc, hx⟩) _
    (List.mem_map_of_mem (f := (· - slabHeaderSize)) hsc')

theorem free_inj (hsc : sc ∈ descriptors table) (hx : x ∈ F sc) (hsc' : sc' ∈ descriptors table)
    (hx' : x ∈ F sc') : sc = sc' := by
  have hn := h.nodup.2.1
  rw [List.nodup_flatMap] at hn
  have : Std.Symm (onFun List.Disjoint F) := ⟨fun _ _ hd _ ha hb => hd hb ha⟩
  by_contra hne
  exact hn.2.forall hsc hsc' hne hx hx'

theorem free_nodup (hsc : sc ∈ descriptors table) : (F sc).Nodup :=
  (List.nodup_flatMap.1 h.nodup.2.1).1 sc hsc

/-! A change inside some blocks keeps what is said about the others. -/

theorem live_frame (hT : ∀ t ∈ T, t ∈ headers table live F)
    (hm : ChangedIn slabHeaderSize mem mem' T) (hb : b ∈ live) (hbT : b.sh ∉ T) :
    LiveOk mem' b := by
  have hkeep : ∀ o < 16, mem' (b.sh + o) = mem (b.sh + o) := fun o ho =>
    h.cells.frame hT hm (live_mem hb) hbT (header_lt ho _)
  obtain ⟨hmagic, hsize, hn⟩ := h.live b hb
  exact ⟨(hkeep 8 (by decide)).trans hmagic, (hkeep 0 (by decide)).trans hsize, hn⟩

theorem cache_frame (hT : ∀ t ∈ T, t ∈ headers table live F)
    (hm : ChangedIn slabHeaderSize mem mem' T) (hsc : sc ∈ table i) (hscT : sc - 16 ∉ T)
    (hF : ∀ x ∈ F sc, x ∉ T) : CacheOk mem' i sc (F sc) := by
  have hd := mem_descriptors.2 ⟨i, hsc⟩
  have hc := h.cache i sc hsc
  apply hc.congr
  · intro o ho
    apply h.cells.frame hT hm (descriptor_mem hd) hscT
    rw [hc.header]
    exact ho
  · intro x hx o ho
    exact h.cells.frame hT hm (free_mem hd hx) (hF x hx) (header_lt ho _)

theorem cache_frame_live (hT : ∀ t ∈ T, ∃ b ∈ live, b.sh = t)
    (hm : ChangedIn slabHeaderSize mem mem' T) (hsc : sc ∈ table i) : CacheOk mem' i sc (F sc) := by
  have hd := mem_descriptors.2 ⟨i, hsc⟩
  apply h.cache_frame (live_mem_of hT) hm hsc
  · intro hscT
    obtain ⟨b, hb, heq⟩ := hT _ hscT
    exact h.live_ne_descriptor hb hd heq
  · intro x hx hxT
    obtain ⟨b, hb, heq⟩ := hT x hxT
    exact h.live_ne_free hb hd hx heq

/-- A step that carves nothing keeps the sizes in the headers; it regroups the blocks or
loses some. -/
theorem regroup {L : List Nat} (hp : (headers table live F).Perm (headers table' live' F' ++ L))
    (hm : ∀ x ∈ headers table live F, mem' x = mem x) (hlive : ∀ b ∈ live', LiveOk mem' b)
    (hcache : ∀ i, ∀ sc ∈ table' i, CacheOk mem' i sc (F' sc)) :
    Partition base stop mem' top left table' live' F' := by
  have hsub : ∀ x ∈ headers table' live' F', x ∈ headers table live F := fun x hx =>
    hp.mem_iff.2 (List.mem_append_left L hx)
  refine ⟨h.low, h.room, h.bump, ?_, ?_, hlive, hcache⟩
  · exact h.cells.of_perm hp fun x hx => hm x (hsub x hx)
  · intro x hx
    rw [hm x (hsub x hx)]
    exact h.aligned x (hsub x hx)

/-! ## Each operation keeps the state -/

theorem store (hb : b ∈ live) (ho : 16 ≤ o) (ho' : o < 16 + mem b.sh) (v : Nat) :
    Partition base stop (update mem (b.sh + o) v) top left table live F := by
  have hbH : b.sh ∈ headers table live F := live_mem hb
  have hT : ∀ t ∈ [b.sh], ∃ b' ∈ live, b'.sh = t := fun t ht =>
    ⟨b, hb, (List.mem_singleton.1 ht).symm⟩
  have hm : ChangedIn slabHeaderSize mem (update mem (b.sh + o) v) [b.sh] :=
    (ChangedIn.refl _).update List.mem_cons_self ho' v
  -- the header words of any block are below the data written
  have hhdr : ∀ x ∈ headers table live F, ∀ o' < 16,
      update mem (b.sh + o) v (x + o') = mem (x + o') := fun x hx o' ho'' =>
    h.cells.update_ne hbH hx ho' (header_lt ho'' _) (Or.inr (by omega)) v
  apply h.regroup (L := [])
  · rw [List.append_nil]
  · intro x hx
    exact hhdr x hx 0 (by decide)
  · intro b' hb'
    obtain ⟨hmagic, hsize, hn⟩ := h.live b' hb'
    have hb'H : b'.sh ∈ headers table live F := live_mem hb'
    exact ⟨(hhdr _ hb'H 8 (by decide)).trans hmagic, (hhdr _ hb'H 0 (by decide)).trans hsize, hn⟩
  · intro i sc hsc
    exact h.cache_frame_live hT hm hsc

theorem carve (hn : n < 2 ^ 32) (hroom : rounded n + 16 ≤ left) :
    Partition base stop (update (update mem (top + 8) slabMagic) top (rounded n))
      (top + (rounded n + 16)) (left - (rounded n + 16)) table (⟨top, n⟩ :: live) F := by
  obtain ⟨_, _, hmul, _⟩ := rounded_eq hn
  have hlow := h.low
  have hstop := h.room
  have hbump := h.bump
  generalize hm : update (update mem (top + 8) slabMagic) top (rounded n) = mem'
  have htop : mem' top = rounded n := by rw [← hm, update_self]
  have htop8 : mem' (top + 8) = slabMagic := by
    rw [← hm, update_of_ne (by omega), update_self]
  -- all blocks so far are below `top`
  have hbelow : ∀ a < top, mem' a = mem a := by
    intro a ha
    rw [← hm, update_of_ne (by omega), update_of_ne (by omega)]
  have hlt : ∀ x ∈ headers table live F, ∀ o < 16 + mem x, x + o < top := by
    intro x hx o ho
    have hin := (h.cells.inside x hx).2
    unfold slabHeaderSize at hin
    omega
  constructor
  · omega
  · omega
  · omega
  · have hc := h.cells.carve hlow hbelow (by decide)
    rw [htop, Nat.add_comm slabHeaderSize] at hc
    exact hc
  · intro x hx
    rcases List.mem_cons.1 hx with rfl | hx
    · rw [htop]
      exact ⟨hbump, hmul⟩
    · rw [hbelow x (hlt x hx 0 (by omega))]
      exact h.aligned x hx
  · intro b hb
    rcases List.mem_cons.1 hb with rfl | hb
    · exact ⟨htop8, htop, hn⟩
    · obtain ⟨hmagic, hsize, hbn⟩ := h.live b hb
      have hbH : b.sh ∈ headers table live F := live_mem hb
      exact ⟨(hbelow _ (hlt _ hbH 8 (by omega))).trans hmagic,
        (hbelow _ (hlt _ hbH 0 (by omega))).trans hsize, hbn⟩
  · intro i sc hsc
    have hd := mem_descriptors.2 ⟨i, hsc⟩
    have hc := h.cache i sc hsc
    apply hc.congr
    · intro o ho
      apply hbelow _ (hlt _ (descriptor_mem hd) o _)
      rw [hc.header]
      exact ho
    · intro x hx o ho
      exact hbelow _ (hlt _ (free_mem hd hx) o (by omega))

end

section

variable (h : Partition base stop mem top left table live F) (hsc : sc ∈ table i)
include h hsc

/-- The words of the blocks other than the head of a list and the link of a block. -/
theorem kept (hx : x ∈ headers table live F) (v w : Nat) {y : Nat} (hy : y ∈ headers table live F)
    (ho : o < slabHeaderSize + mem y) (hlink : y ≠ x ∨ o ≠ 8) (hhead : y ≠ sc - 16 ∨ o ≠ 40) :
    update (update mem (sc + 24) v) (x + 8) w (y + o) = mem (y + o) := by
  have hc := h.cache i sc hsc
  have habove := hc.above
  have h40 : 40 < slabHeaderSize + mem (sc - 16) := by
    rw [hc.header]
    decide
  rw [h.cells.update_ne hx hy (header_lt (by decide) _) ho hlink,
    show sc + 24 = sc - 16 + 40 by omega]
  exact h.cells.update_ne (descriptor_mem (mem_descriptors.2 ⟨i, hsc⟩)) hy h40 ho hhead v

theorem link_ne_head (hx : x ∈ headers table live F) (hne : x ≠ sc - 16) : x + 8 ≠ sc + 24 := by
  have hc := h.cache i sc hsc
  have habove := hc.above
  intro he
  apply hne
  apply h.cells.eq_of_add hx (descriptor_mem (mem_descriptors.2 ⟨i, hsc⟩)) (o := 8) (p := 40)
  · exact header_lt (by decide) _
  · rw [hc.header]
    decide
  · omega

/-- The list of one descriptor becomes `l`, by a write to its head and one to the link or
magic word of the block `x`. -/
theorem relist (hx : x ∈ headers table live F)
    (hxd : ∀ sc' ∈ descriptors table, x ≠ sc' - 16 ∧ (sc' ≠ sc → x ∉ F sc')) {v w : Nat}
    {L : List Nat} (hp : (headers table live F).Perm (headers table live' (update F sc l) ++ L))
    (hlive : ∀ b ∈ live', b ∈ live ∧ b.sh ≠ x ∨
      b.sh = x ∧ w = slabMagic ∧ mem x = rounded b.n ∧ b.n < 2 ^ 32)
    (hchain : Chain (fun y => update (update mem (sc + 24) v) (x + 8) w (y + 8)) v l)
    (hl : ∀ y ∈ l, y ∈ headers table live F ∧ mem y = mem sc) :
    Partition base stop (update (update mem (sc + 24) v) (x + 8) w) top left table live'
      (update F sc l) := by
  have hd := mem_descriptors.2 ⟨i, hsc⟩
  have hc := h.cache i sc hsc
  have habove := hc.above
  have hkept := fun y (hy : y ∈ headers table live F) o (ho : o < slabHeaderSize + mem y) =>
    h.kept hsc hx v w hy ho
  have hdH : sc - 16 ∈ headers table live F := descriptor_mem hd
  have hsize : ∀ y ∈ headers table live F, update (update mem (sc + 24) v) (x + 8) w y = mem y :=
    fun y hy => hkept y hy 0 (header_lt (by decide) _) (Or.inr (by decide)) (Or.inr (by decide))
  have hT : ∀ t ∈ [x, sc - 16], t ∈ headers table live F := by
    simp [hx, hdH]
  have hch : ChangedIn slabHeaderSize mem (update (update mem (sc + 24) v) (x + 8) w)
      [x, sc - 16] := by
    apply ChangedIn.update _ (by simp) (header_lt (by decide) _)
    rw [show sc + 24 = sc - 16 + 40 by omega]
    exact (ChangedIn.refl _).update (by simp) (by rw [hc.header]; decide) v
  apply h.regroup hp hsize
  · intro b hb
    rcases hlive b hb with ⟨hb, hne⟩ | ⟨rfl, rfl, hn, hlt⟩
    · apply h.live_frame hT hch hb
      have := h.live_ne_descriptor hb hd
      simp [hne, this]
    · exact ⟨update_self .., (hsize _ hx).trans hn, hlt⟩
  · intro j sc' hsc'
    have hd' := mem_descriptors.2 ⟨j, hsc'⟩
    by_cases he : sc' = sc
    · subst he
      have hc' := h.cache j sc' hsc'
      have h16 := hkept _ hdH 16 (by rw [hc.header]; decide) (Or.inr (by decide))
        (Or.inr (by decide))
      rw [Nat.sub_add_cancel habove] at h16
      have h40 : update (update mem (sc' + 24) v) (x + 8) w (sc' + 24) = v := by
        rw [update_of_ne (h.link_ne_head hsc hx (hxd _ hd).1).symm, update_self]
      rw [update_self]
      refine ⟨habove, (hsize _ hdH).trans hc.header, h16 ▸ hc'.bucket, h40.symm ▸ hchain, ?_⟩
      intro y hy
      rw [h16, hsize y (hl y hy).1]
      exact (hl y hy).2
    · rw [update_of_ne he]
      apply h.cache_frame hT hch hsc'
      · have habove' := (h.cache j sc' hsc').above
        have hne := (hxd sc' hd').1
        simp only [List.mem_cons, List.not_mem_nil, or_false, not_or]
        omega
      · intro y hy
        have hyx : y ≠ x := fun hyx => (hxd sc' hd').2 he (hyx ▸ hy)
        have hyd := h.free_ne_descriptor hd' hy hd
        simp [hyx, hyd]

theorem pop (hn : n < 2 ^ 32) (hsize : mem sc = rounded n) {xs : List Nat} (hF : F sc = x :: xs) :
    Partition base stop (update (update mem (sc + 24) (mem (x + 8))) (x + 8) slabMagic) top left
      table (⟨x, n⟩ :: live) (update F sc xs) := by
  have hd := mem_descriptors.2 ⟨i, hsc⟩
  have hc := h.cache i sc hsc
  have hxF : x ∈ F sc := hF ▸ List.mem_cons_self
  have hsub : ∀ y ∈ xs, y ∈ F sc := fun y hy => hF ▸ List.mem_cons_of_mem x hy
  have hx : x ∈ headers table live F := free_mem hd hxF
  have hnd := h.free_nodup hd
  have hchain := hc.chain
  rw [hF] at hnd hchain
  refine h.relist (L := []) hsc hx ?_ ?_ ?_ ?_ ?_
  · intro sc' hd'
    exact ⟨h.free_ne_descriptor hd hxF hd', fun hne hx' => hne (h.free_inj hd' hx' hd hxF)⟩
  · -- the block moves from the list to the blocks in use
    have hp := flatMap_update (f := F) h.nodup.2.2 hd xs
    rw [hF] at hp
    apply List.perm_iff_count.2
    intro a
    have hcount := hp.count_eq a
    simp only [headers, List.map_cons, List.append_nil, List.count_append, List.count_cons]
      at hcount ⊢
    omega
  · intro b hb
    rcases List.mem_cons.1 hb with rfl | hb
    · exact Or.inr ⟨rfl, rfl, (hc.size x hxF).trans hsize, hn⟩
    · exact Or.inl ⟨hb, h.live_ne_free hb hd hxF⟩
  · apply hchain.2.2.congr
    intro y hy
    apply h.kept hsc hx _ _ (free_mem hd (hsub y hy)) (header_lt (by decide) _)
    · exact Or.inl fun hyx => (List.nodup_cons.1 hnd).1 (hyx ▸ hy)
    · exact Or.inr (by decide)
  · intro y hy
    exact ⟨free_mem hd (hsub y hy), hc.size y (hsub y hy)⟩

theorem push (hb : live.Perm (b :: live')) (hsize : mem sc = mem b.sh) :
    Partition base stop (update (update mem (b.sh + 8) (mem (sc + 24))) (sc + 24) b.sh) top left
      table live' (update F sc (pushed b.sh (F sc))) := by
  have hd := mem_descriptors.2 ⟨i, hsc⟩
  have hc := h.cache i sc hsc
  have hbl : b ∈ live := hb.mem_iff.2 List.mem_cons_self
  have hx : b.sh ∈ headers table live F := live_mem hbl
  have hnd := (hb.map Block.sh).nodup_iff.1 h.nodup.1
  rw [update_comm (h.link_ne_head hsc hx (h.live_ne_descriptor hbl hd))]
  obtain ⟨L, hL⟩ := pushed_perm b.sh (F sc)
  refine h.relist (L := L) hsc hx ?_ ?_ ?_ ?_ ?_
  · intro sc' hd'
    exact ⟨h.live_ne_descriptor hbl hd', fun _ hx' => h.live_ne_free hbl hd' hx' rfl⟩
  · have hp := flatMap_update (f := F) h.nodup.2.2 hd (pushed b.sh (F sc))
    apply List.perm_iff_count.2
    intro a
    have hcount := hp.count_eq a
    have hLa := hL.count_eq a
    have hba := (hb.map Block.sh).count_eq a
    simp only [headers, List.map_cons, List.count_append, List.count_cons] at hcount hLa hba ⊢
    omega
  · intro b' hb'
    refine Or.inl ⟨hb.mem_iff.2 (List.mem_cons_of_mem b hb'), fun he => ?_⟩
    rw [List.map_cons, List.nodup_cons, ← he] at hnd
    exact hnd.1 (List.mem_map_of_mem hb')
  · apply chain_pushed
    rw [update_self]
    apply hc.chain.congr
    intro y hy
    apply h.kept hsc hx _ _ (free_mem hd hy) (header_lt (by decide) _)
    · exact Or.inl (h.live_ne_free hbl hd hy).symm
    · exact Or.inr (by decide)
  · intro y hy
    rcases mem_pushed hy with rfl | hy
    · exact ⟨hx, hsize.symm⟩
    · exact ⟨free_mem hd hy, hc.size y hy⟩

end

/-- Two blocks in use become a descriptor and the list it heads. -/
theorem headers_linked (m : Nat) (hfresh : d + 16 ∉ descriptors table) (i : Fin 8)
    (hb : live.Perm (b :: live')) : ∃ L, (headers table (⟨d, m⟩ :: live) F).Perm
      (headers (update table i (table i ++ [d + 16])) live' (update F (d + 16) (pushed b.sh [])) ++
        L) := by
  obtain ⟨L, hL⟩ := pushed_perm b.sh []
  have hnew := descriptors_appended table i (d + 16)
  have hflat := hnew.flatMap_right (update F (d + 16) (pushed b.sh []))
  rw [List.flatMap_cons, update_self, flatMap_update_of_notMem hfresh] at hflat
  refine ⟨L, List.perm_iff_count.2 fun a => ?_⟩
  have hcount := hflat.count_eq a
  have hmap := (hnew.map (· - slabHeaderSize)).count_eq a
  have hLa := hL.count_eq a
  have hba := (hb.map Block.sh).count_eq a
  rw [List.map_cons, show d + 16 - slabHeaderSize = d from Nat.add_sub_cancel ..] at hmap
  simp only [headers, List.map_cons, List.count_append, List.count_cons, List.count_nil]
    at hcount hmap hLa hba ⊢
  omega

/-- `hfree` makes the block at `d` a descriptor, for a list with one block. -/
theorem link {m : Nat} (h : Partition base stop mem top left table (⟨d, m⟩ :: live) F)
    (hd : mem d = slabCacheSize) (hb : live.Perm (b :: live')) :
    Partition base stop
      (update (update (update mem (d + 16) (mem b.sh)) (d + 16 + 24) b.sh) (b.sh + 8) 0) top left
      (update table (hash (mem b.sh)) (table (hash (mem b.sh)) ++ [d + 16])) live'
      (update F (d + 16) (pushed b.sh [])) := by
  have hdl : ⟨d, m⟩ ∈ (⟨d, m⟩ :: live : List Block) := List.mem_cons_self
  have hbl : b ∈ ⟨d, m⟩ :: live := List.mem_cons_of_mem _ (hb.mem_iff.2 List.mem_cons_self)
  have hx : b.sh ∈ headers table (⟨d, m⟩ :: live) F := live_mem hbl
  have hdH : d ∈ headers table (⟨d, m⟩ :: live) F := live_mem hdl
  have hnd := (((hb.cons ⟨d, m⟩).map Block.sh).nodup_iff).1 h.nodup.1
  simp only [List.map_cons, List.nodup_cons, List.mem_cons, not_or] at hnd
  obtain ⟨⟨hdx, hdlive⟩, hxlive, _⟩ := hnd
  have hfresh : d + 16 ∉ descriptors table := fun hsc =>
    h.live_ne_descriptor hdl hsc (by simp)
  have hlt : ∀ o < 48, o < slabHeaderSize + mem d := fun o ho => by
    rw [hd]
    exact ho
  generalize hm : update (update (update mem (d + 16) (mem b.sh)) (d + 16 + 24) b.sh) (b.sh + 8) 0
    = m3
  have hsize : ∀ y ∈ headers table (⟨d, m⟩ :: live) F, m3 y = mem y := by
    intro y hy
    have hy0 : 0 < slabHeaderSize + mem y := header_lt (by decide) _
    rw [← hm]
    exact ((h.cells.update_ne hx hy (header_lt (by decide) _) hy0 (Or.inr (by decide)) _).trans
      (h.cells.update_ne hdH hy (hlt 40 (by decide)) hy0 (Or.inr (by decide)) _)).trans
      (h.cells.update_ne hdH hy (hlt 16 (by decide)) hy0 (Or.inr (by decide)) _)
  have hT : ∀ t ∈ [b.sh, d], ∃ b' ∈ (⟨d, m⟩ :: live : List Block), b'.sh = t := by
    simp only [List.mem_cons, List.not_mem_nil, or_false]
    rintro t (rfl | rfl)
    · exact ⟨b, List.mem_cons.1 hbl, rfl⟩
    · exact ⟨⟨t, m⟩, .inl rfl, rfl⟩
  have hch : ChangedIn slabHeaderSize mem m3 [b.sh, d] := by
    rw [← hm]
    exact (((ChangedIn.refl _).update (by simp) (hlt 16 (by decide)) _).update (t := d) (o := 40)
      (by simp) (hlt 40 (by decide)) _).update (by simp) (header_lt (by decide) _) _
  obtain ⟨L, hL⟩ := headers_linked m hfresh (hash (mem b.sh)) hb
  refine h.regroup hL hsize ?_ ?_
  · intro b' hb'
    apply h.live_frame (live_mem_of hT) hch
      (List.mem_cons_of_mem _ (hb.mem_iff.2 (List.mem_cons_of_mem b hb')))
    have hne : b'.sh ≠ b.sh := fun he => hxlive (he ▸ List.mem_map_of_mem hb')
    have hne' : b'.sh ≠ d := fun he => hdlive (he ▸ List.mem_map_of_mem hb')
    simp [hne, hne']
  · intro j sc hsc
    rcases mem_appended hsc with hold | ⟨rfl, rfl⟩
    · have hdsc := mem_descriptors.2 ⟨j, hold⟩
      have hne : sc ≠ d + 16 := fun he => hfresh (he ▸ hdsc)
      rw [update_of_ne hne]
      exact h.cache_frame_live hT hch hold
    · -- the new descriptor
      have hword : ∀ o < 48, d + o ≠ b.sh + 8 := fun o ho he =>
        hdx (h.cells.eq_of_add hdH hx (hlt o ho) (header_lt (by decide) _) he)
      have h16 : m3 (d + 16) = mem b.sh := by
        rw [← hm, update_of_ne (hword 16 (by decide)), update_of_ne (by omega), update_self]
      have h40 : m3 (d + 16 + 24) = b.sh := by
        rw [← hm, update_of_ne (hword 40 (by decide)), update_self]
      have hlink : m3 (b.sh + 8) = 0 := by rw [← hm, update_self]
      rw [update_self, ← hsize _ hx]
      exact cacheOk_pushed ((hsize d hdH).trans hd) (h16.trans (hsize _ hx).symm) h40 hlink

end Partition
end

end SpringOs.Halloc
