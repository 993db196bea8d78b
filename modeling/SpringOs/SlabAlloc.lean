import SpringOs.PageAlloc

/-!
`src/slab.c`: pools of equal-sized objects carved out of single pages.

A slab is a page that starts with its `struct slab` header; a pool keeps the
slabs with room and those without on two lists, and the objects that were freed
on a chain of `struct slab_cache` nodes. Freed objects never go back to their
slab: `slab_free` returns before the code that would do it.

* `caculateNrObject_spec`: the search for the number of objects ends with the
  largest that fits the page;
* `freshSlab_ok`: the slab a refill makes is laid out inside its page, header,
  free list and objects in this order.
-/

namespace SpringOs.SlabAlloc
open Lib.Word Kernel PageAlloc
open Function (update)

/-- `struct slab`, at the address `page`. `pool` is the pool's index in
`pool_ptrs`, the link `lru` is the slab's place on a list of its pool. -/
structure Slab where
  page : Nat
  objStart : Nat
  pool : Nat
  freelist : List Int
  magic : Nat
  active : Nat
  nrFree : Nat
  nrObj : Nat
  deriving DecidableEq, Repr

/-- `struct slab_cache`, at the address `node`: a freed object. -/
structure SlabCache where
  node : Nat
  obj : Nat
  deriving DecidableEq, Repr

/-- `struct slab_pool`; `partials` is the list `partial`. -/
structure SlabPool where
  size : Nat
  objSize : Nat
  gfporder : Nat
  partials : List Slab
  full : List Slab
  cache : List SlabCache
  deriving DecidableEq, Repr

/-- The kernel heap: the page sections, and `pool_ptrs` up to `nr_pools`. -/
structure Kmem where
  secs : List PageSection
  nrPools : Nat
  pools : Nat → SlabPool

def slabMagic : Nat := 0xdeadbeef

def maxMemPools : Nat := 32

def normalPoolStart : Nat := 2

def newPool (size : Nat) : SlabPool := ⟨size, size, 0, [], [], []⟩

/-- `root_pool`, for the 64 bytes of a `struct slab_pool`. -/
def rootPool : SlabPool := newPool 64

/-- `cache_pool`, for the 16 bytes of a `struct slab_cache`. -/
def cachePool : SlabPool := newPool 16

/-- `general_pools`. -/
def generalPools : List Nat := [8, 16, 32, 64, 128, 256, 512]

/-- The `while` loop of `caculate_nr_object`; `none` when it takes more rounds
than `fuel`. -/
def nrObjectLoop (pageEnd freelist objSize : Nat) : Nat → Int → Option Int
  | 0, _ => none
  | fuel + 1, n =>
    let objStart := alignUp (u64 (freelist + 2 * n)) objSize
    if u64 (objStart + i32 (n * objSize)) > pageEnd then
      nrObjectLoop pageEnd freelist objSize fuel (n - 1)
    else some n

/-- `caculate_nr_object` once it has `page_end`. A search in which nothing fits goes down to
`-1`, where the objects end in front of the free list. -/
def nrObjectIn (pageEnd freelist objSize : Nat) : Except Fault Nat :=
  let nrObj := i32 (u64 (pageEnd - freelist) / objSize : Nat)
  match nrObjectLoop pageEnd freelist objSize (nrObj.toNat + 2) nrObj with
  | none => .error .hang
  | some n => if n > 0 then .ok n.toNat else .error (.assertion .caculateNrObject)

/-- `PAGE_SIZE * (1 << order)`, an `int`. -/
def pageBytes (order : Nat) : Except Fault Int :=
  if 4096 * 2 ^ order < 2 ^ 31 then .ok (4096 * 2 ^ order) else .error .overflow

def caculateNrObject (slab freelist order objSize : Nat) : Except Fault Nat := do
  let bytes ← pageBytes order
  nrObjectIn (u64 (slab + bytes)) freelist objSize

/-- The slab `slab_refill` makes of a page with room for `nrObj` objects. -/
def freshSlab (page i size nrObj : Nat) : Slab :=
  { page := page
    objStart := alignUp (u64 (u64 (page + 64) + 2 * nrObj)) size
    pool := i
    freelist := (List.range nrObj).map (fun j : Nat => i16 j)
    magic := slabMagic
    active := 0
    nrFree := nrObj
    nrObj := nrObj }

/-- `slab_refill`: `none` when there is no page. -/
def slabRefill (k : Kmem) (i : Nat) : Except Fault (Option Kmem) := do
  let (va, secs) ← pageAlloc k.secs
  match va with
  | none => .ok none
  | some page =>
    let pool := k.pools i
    let nrObj ← caculateNrObject page (u64 (page + 64)) pool.gfporder pool.size
    let slab := freshSlab page i pool.size nrObj
    .ok (some { k with
      secs := secs
      pools := update k.pools i { pool with partials := slab :: pool.partials } })

/-- The first slab of the list with a free object, and what surrounds it. -/
def splitFree : List Slab → Option (List Slab × Slab × List Slab)
  | [] => none
  | s :: rest =>
    if s.nrFree > 0 then some ([], s, rest)
    else (splitFree rest).map (fun r => (s :: r.1, r.2.1, r.2.2))

/-- The pool once the next object of `slab` has been taken. -/
def takeObject (pool : SlabPool) (before : List Slab) (slab : Slab) (after : List Slab) :
    SlabPool :=
  let slab' := { slab with active := slab.active + 1, nrFree := slab.nrFree - 1 }
  if slab'.nrFree = 0 then { pool with partials := before ++ after, full := slab' :: pool.full }
  else { pool with partials := before ++ slab' :: after }

/-- `slab_alloc_pool` from the label `realloc` on; each round past the first
follows a refill. -/
def reallocLoop (i : Nat) : Nat → Kmem → Except Fault (Nat × Kmem)
  | 0, _ => .error .hang
  | fuel + 1, k =>
    let pool := k.pools i
    if pool.partials = [] then do
      match ← slabRefill k i with
      | none => .error (.assertion .slabAllocPool)
      | some k' => reallocLoop i fuel k'
    else
      match splitFree pool.partials with
      | none => .error (.assertion .slabAllocPool)
      | some (before, slab, after) =>
        match slab.freelist[slab.active]? with
        | none => .error .outOfBounds
        | some objIndex =>
          .ok (u64 (slab.objStart + pool.size * objIndex),
            { k with pools := update k.pools i (takeObject pool before slab after) })

def slabAllocPool (k : Kmem) (i : Nat) : Except Fault (Nat × Kmem) :=
  match (k.pools i).cache with
  | c :: rest =>
    .ok (c.obj, { k with pools := update k.pools i { k.pools i with cache := rest } })
  | [] => reallocLoop i 2 k

/-- The loop of `slab_alloc` over `pool_ptrs`; its last round reads one pointer
past the general pools. -/
def slabAllocLoop (k : Kmem) (bytes : Int) : Nat → Nat → Except Fault (Option Nat × Kmem)
  | 0, _ => .ok (none, k)
  | n + 1, i =>
    if k.nrPools ≤ i then .error .nullDeref
    else if ((k.pools i).objSize : Int) ≥ bytes then do
      let (obj, k') ← slabAllocPool k i
      .ok (some obj, k')
    else slabAllocLoop k bytes n (i + 1)

def slabAlloc (k : Kmem) (bytes : Int) : Except Fault (Option Nat × Kmem) :=
  if bytes ≥ 4096 then .error (.assertion .slabAlloc)
  else if k.nrPools = 0 ∨ (k.pools 0).objSize = 0 then .error (.assertion .slabAlloc)
  else slabAllocLoop k bytes (generalPools.length + 1) normalPoolStart

/-- The slabs of a pool, those with room first. -/
def SlabPool.slabs (pool : SlabPool) : List Slab := pool.partials ++ pool.full

/-- `slab_own_addr`: the pools after the root pool are searched. -/
def slabOwnAddr (k : Kmem) (ptr : Nat) : Bool :=
  (List.range' 1 (k.nrPools - 1)).any fun i =>
    (k.pools i).slabs.any fun s =>
      decide (s.objStart ≤ ptr ∧ ptr < s.objStart + (k.pools i).objSize * s.nrObj)

/-- The header at the start of the page at `page`, if a slab was made of it. -/
def headerAt (k : Kmem) (page : Nat) : Option Slab :=
  ((List.range k.nrPools).flatMap fun i => (k.pools i).slabs).find? fun s => s.page = page

/-- A freed object goes on the cache chain of its pool, in front. -/
def pushCache (k : Kmem) (i node ptr : Nat) : Kmem :=
  let pool := k.pools i
  { k with pools := update k.pools i { pool with cache := ⟨node, ptr⟩ :: pool.cache } }

/-- `slab_free`, up to its `return`. -/
def slabFree (k : Kmem) (ptr : Nat) : Except Fault Kmem :=
  match headerAt k (alignDown ptr 4096) with
  | none => .error .wildAccess
  | some slab =>
    if slab.magic ≠ slabMagic then .error (.assertion .slabFree)
    else if ¬ slab.objStart ≤ ptr then .error (.assertion .slabFree)
    else if ¬ slab.nrFree < slab.nrObj then .error (.assertion .slabFree)
    else if isAligned ptr (k.pools slab.pool).objSize = false then .error (.assertion .slabFree)
    else do
      let (node, k') ← slabAllocPool k 1
      .ok (pushCache k' slab.pool node ptr)

/-- `slab_pool_create`, with `slab_pool_init`; `none` when there are too many
pools. -/
def slabPoolCreate (k : Kmem) (objsize : Nat) : Except Fault (Option Kmem) := do
  let (_, k') ← slabAllocPool k 0
  if maxMemPools ≤ k'.nrPools then .ok none
  else .ok (some { k' with
    nrPools := k'.nrPools + 1
    pools := update k'.pools k'.nrPools (newPool objsize) })

/-- The loop of `init_slab` over `general_pools`. -/
def createPools : List Nat → Kmem → Except Fault (Option Kmem)
  | [], k => .ok (some k)
  | size :: rest, k => do
    match ← slabPoolCreate k size with
    | none => .ok none
    | some k' => createPools rest k'

/-- `init_slab`. -/
def initSlab (secs : List PageSection) : Except Fault (Option Kmem) :=
  createPools generalPools
    { secs := secs, nrPools := 2, pools := fun i => if i = 0 then rootPool else cachePool }

/-! ## `src/kmem.c` -/

/-- `pages` of `kalloc`, for a request the slabs do not serve. -/
def kallocPages (size : Nat) : Int := i32 (alignUp size 4096 / 4096 : Nat)

def kalloc (k : Kmem) (size : Nat) : Except Fault (Option Nat × Kmem) :=
  if size ≤ 512 then slabAlloc k size
  else do
    let (va, secs) ← pageAllocn k.secs (kallocPages size)
    .ok (va, { k with secs := secs })

def kfree (k : Kmem) (addr : Nat) : Except Fault Kmem :=
  if slabOwnAddr k addr then slabFree k addr
  else do
    let secs ← pageFree k.secs addr
    .ok { k with secs := secs }

/-! ## The layout of a slab -/

/-- A slab of pool `i` laid out for objects of `size` bytes: the header and the
free list first, then `nrObj` aligned objects up to at most the end of the
page; the first `active` of them have been taken. -/
structure SlabOk (i size : Nat) (s : Slab) : Prop where
  aligned : s.page % 4096 = 0
  top : s.page + 8192 ≤ 2 ^ 64
  pool : s.pool = i
  magic : s.magic = slabMagic
  taken : s.active + s.nrFree = s.nrObj
  freelist : s.freelist = (List.range s.nrObj).map (fun j : Nat => (j : Int))
  first : s.page + 64 ≤ s.objStart
  last : s.objStart + size * s.nrObj ≤ s.page + 4096
  objAligned : s.objStart % size = 0

/-- `size` is one of the sizes of the pools. -/
def PoolSize (size : Nat) : Prop := ∃ m, 3 ≤ m ∧ m ≤ 9 ∧ size = 2 ^ m

theorem poolSize_pow {m : Nat} (hlo : 3 ≤ m) (hhi : m ≤ 9) : PoolSize (2 ^ m) :=
  ⟨m, hlo, hhi, rfl⟩

variable {size page i : Nat} {s : Slab}

theorem generalPools_size (h : size ∈ generalPools) : PoolSize size := by
  have hall : ∀ z ∈ generalPools, ∃ m ∈ [3, 4, 5, 6, 7, 8, 9], z = 2 ^ m := by decide
  obtain ⟨m, hm, rfl⟩ := hall size h
  simp only [List.mem_cons, List.not_mem_nil, or_false] at hm
  exact poolSize_pow (by omega) (by omega)

theorem PoolSize.bounds (h : PoolSize size) : 8 ≤ size ∧ size ≤ 512 := by
  obtain ⟨m, hlo, hhi, rfl⟩ := h
  exact ⟨Nat.pow_le_pow_right (n := 2) (i := 3) (by decide) hlo,
    Nat.pow_le_pow_right (n := 2) (j := 9) (by decide) hhi⟩

theorem objStart_bounds {n : Nat} (hsize : PoolSize size) (htop : page + 8192 ≤ 2 ^ 64)
    (hn : n ≤ 504) :
    page + 64 + 2 * n ≤ alignUp (page + 64 + 2 * n) size ∧
      alignUp (page + 64 + 2 * n) size < page + 64 + 2 * n + size ∧
      alignUp (page + 64 + 2 * n) size % size = 0 := by
  have hb := hsize.bounds
  obtain ⟨m, _, _, rfl⟩ := hsize
  exact alignUp_bounds (by omega)

/-- The loop stops at the largest number of objects that fits, since one object does. -/
theorem nrObjectLoop_spec (hsize : PoolSize size) (htop : page + 8192 ≤ 2 ^ 64) (fuel n : Nat)
    (hlo : 1 ≤ n) (hfuel : n ≤ fuel) (hn : n ≤ 504) (hn' : n * size ≤ 4032) :
    ∃ r : Nat, nrObjectLoop (page + 4096) (page + 64) size fuel n = some (r : Int) ∧
      1 ≤ r ∧ r ≤ n ∧ alignUp (page + 64 + 2 * r) size + r * size ≤ page + 4096 ∧
      (r = n ∨ page + 4096 < alignUp (page + 64 + 2 * (r + 1)) size + (r + 1) * size) := by
  have hb := hsize.bounds
  induction fuel generalizing n with
  | zero => omega
  | succ fuel ih =>
    obtain ⟨hge, hlt, _⟩ := objStart_bounds hsize htop hn
    have hstart : u64 (((page + 64 : Nat) : Int) + 2 * n) = page + 64 + 2 * n := by
      unfold u64
      omega
    have hend : u64 ((alignUp (page + 64 + 2 * n) size : Nat) + i32 ((n : Int) * size)) =
        alignUp (page + 64 + 2 * n) size + n * size := by
      rw [← Int.natCast_mul, i32_of_lt (by omega) (by omega)]
      unfold u64
      omega
    simp only [nrObjectLoop, hstart, hend]
    split
    · rename_i hbig
      have hne : n ≠ 1 := by
        rintro rfl
        omega
      obtain ⟨m, rfl⟩ : ∃ m, n = m + 1 := ⟨n - 1, by omega⟩
      rw [show ((m + 1 : Nat) : Int) - 1 = (m : Nat) by omega]
      obtain ⟨r, hr, h1, h2, h3, h4⟩ := ih m (by omega) (by omega) (by omega)
        (by rw [Nat.add_mul] at hn'; omega)
      refine ⟨r, hr, h1, by omega, h3, Or.inr ?_⟩
      rcases h4 with rfl | h4
      · exact hbig
      · exact h4
    · exact ⟨n, rfl, hlo, le_refl _, by omega, Or.inl rfl⟩

theorem caculateNrObject_loop (htop : page + 8192 ≤ 2 ^ 64) :
    caculateNrObject page (u64 (page + 64)) 0 size =
      (nrObjectLoop (page + 4096) (page + 64) size (4032 / size + 2) (4032 / size : Nat)).elim
        (.error .hang)
        fun n => if n > 0 then .ok n.toNat else .error (.assertion .caculateNrObject) := by
  have hfl : u64 ((page : Int) + 64) = page + 64 := by
    unfold u64
    omega
  have hend : u64 ((page : Int) + 4096) = page + 4096 := by
    unfold u64
    omega
  have hspace : u64 (((page + 4096 : Nat) : Int) - (page + 64 : Nat)) = 4032 := by
    unfold u64
    omega
  have hint : ∀ q : Nat, q ≤ 4032 → i32 q = q := fun q hq => i32_of_lt (by omega) (by omega)
  change nrObjectIn (u64 ((page : Int) + 4096)) (u64 (page + 64)) size = _
  unfold nrObjectIn
  simp only [hfl, hend, hspace, hint _ (Nat.div_le_self 4032 size), Int.toNat_natCast]
  cases nrObjectLoop (page + 4096) (page + 64) size (4032 / size + 2) (4032 / size : Nat) with
  | none => rfl
  | some n => rfl

/-- **The number of objects** of a slab: at least one, and as many as fit. -/
theorem caculateNrObject_spec (hsize : PoolSize size) (htop : page + 8192 ≤ 2 ^ 64) :
    ∃ n, caculateNrObject page (u64 (page + 64)) 0 size = .ok n ∧ 1 ≤ n ∧ n ≤ 504 ∧
      alignUp (page + 64 + 2 * n) size + n * size ≤ page + 4096 ∧
      (n = 4032 / size ∨
        page + 4096 < alignUp (page + 64 + 2 * (n + 1)) size + (n + 1) * size) := by
  have hb := hsize.bounds
  have hle : 4032 / size ≤ 504 := Nat.div_le_div_left hb.1 (by decide)
  have hpos : 1 ≤ 4032 / size := (Nat.one_le_div_iff (by omega)).mpr (by omega)
  obtain ⟨r, hr, h1, h2, h3, h4⟩ := nrObjectLoop_spec hsize htop (4032 / size + 2) (4032 / size)
    hpos (by omega) hle (Nat.div_mul_le_self 4032 size)
  refine ⟨r, ?_, h1, by omega, h3, h4⟩
  rw [caculateNrObject_loop htop, hr, Option.elim_some, if_pos (by omega), Int.toNat_natCast]

/-- A slab as a refill leaves it: its objects lie behind the free list, and one more would
not fit. -/
structure FreshSlab (i size : Nat) (s : Slab) : Prop where
  ok : SlabOk i size s
  active : s.active = 0
  pos : 0 < s.nrObj
  behind : s.page + 64 + 2 * s.nrObj ≤ s.objStart
  most : s.nrObj = 4032 / size ∨
    s.page + 4096 < alignUp (s.page + 64 + 2 * (s.nrObj + 1)) size + (s.nrObj + 1) * size

/-- **The slab a refill makes** of a page is well laid out. -/
theorem freshSlab_ok {n : Nat} (i : Nat) (hsize : PoolSize size) (haligned : page % 4096 = 0)
    (htop : page + 8192 ≤ 2 ^ 64) (hpos : 1 ≤ n) (hn : n ≤ 504)
    (hfit : alignUp (page + 64 + 2 * n) size + n * size ≤ page + 4096) (hmost : n = 4032 / size ∨
      page + 4096 < alignUp (page + 64 + 2 * (n + 1)) size + (n + 1) * size) :
    FreshSlab i size (freshSlab page i size n) := by
  obtain ⟨hge, _, hmod⟩ := objStart_bounds hsize htop hn
  have hfl : u64 ((u64 ((page : Int) + 64) : Nat) + 2 * (n : Int)) = page + 64 + 2 * n := by
    unfold u64
    omega
  have hlist : (List.range n).map (fun j : Nat => i16 j) =
      (List.range n).map (fun j : Nat => (j : Int)) := by
    refine List.map_congr_left ?_
    intro j hj
    have := List.mem_range.mp hj
    exact i16_of_lt (by omega) (by omega)
  have hfirst : page + 64 ≤ alignUp (page + 64 + 2 * n) size := by omega
  rw [Nat.mul_comm n size] at hfit
  unfold freshSlab
  rw [hfl, hlist]
  exact ⟨⟨haligned, htop, rfl, rfl, Nat.zero_add n, rfl, hfirst, hfit, hmod⟩, rfl, hpos, hge, hmost⟩

theorem SlabOk.obj_bounds (h : SlabOk i size s) {j : Nat} (hj : j < s.nrObj) :
    s.page + 64 ≤ s.objStart + size * j ∧ s.objStart + size * j + size ≤ s.page + 4096 := by
  have hmul : size * j + size ≤ size * s.nrObj := by
    rw [← Nat.mul_succ]
    exact Nat.mul_le_mul_left size hj
  have h1 := h.first
  have h2 := h.last
  omega

theorem SlabOk.active_le (h : SlabOk i size s) : s.active ≤ s.nrObj := by
  have := h.taken
  omega

/-- The slab after its next object has been taken. -/
def advance (s : Slab) : Slab := { s with active := s.active + 1, nrFree := s.nrFree - 1 }

theorem SlabOk.advance (h : SlabOk i size s) (hfree : 0 < s.nrFree) :
    SlabOk i size (advance s) := by
  have htaken := h.taken
  exact ⟨h.aligned, h.top, h.pool, h.magic, by simp only [SlabAlloc.advance]; omega, h.freelist,
    h.first, h.last, h.objAligned⟩

end SpringOs.SlabAlloc
