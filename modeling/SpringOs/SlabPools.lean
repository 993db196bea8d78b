import SpringOs.KmemRuns

/-!
The pools of `src/slab.c` once `slab_pool_create` has been called with object sizes of any kind:
the function checks nothing about them.

* **`Taken`**: all that `slab_alloc_pool` can do when it returns an object, in any state;
* `pstep`: the calls of the allocator, and `Steps pstep pok` their runs;
* `General`: the general pools stand where `init_slab` has put them, in every run;
* `slab_alloc_general_iff`: `slab_alloc` keeps to the general pools exactly up to 512 bytes. Its
  search takes in the pool behind them, which is the first one created later or a null pointer.
-/

namespace SpringOs.SlabPools
open Lib.Word Lib.Machine Kernel PageAlloc PageRuns SlabAlloc Heap KmemRuns
open Function (update update_self update_of_ne update_idem)

variable {size n j i x : Nat} {bytes : Int} {k k' : Kmem}

/-! ## What `slab_alloc_pool` can do -/

/-- The object `x` comes from the chain of freed ones, from a slab with room, or from a new
slab. -/
inductive Taken (k : Kmem) (i : Nat) : Nat → Kmem → Prop
  | hit {c : SlabCache} {rest : List SlabCache} (hcache : (k.pools i).cache = c :: rest) :
      Taken k i c.obj
        { k with pools := update k.pools i { k.pools i with cache := rest } }
  | take {before after : List Slab} {s : Slab} {objIndex : Int} (hcache : (k.pools i).cache = [])
      (hsplit : splitFree (k.pools i).partials = some (before, s, after))
      (hindex : s.freelist[s.active]? = some objIndex) :
      Taken k i (u64 (s.objStart + (k.pools i).size * objIndex))
        { k with pools := update k.pools i (takeObject (k.pools i) before s after) }
  | refill {page n : Nat} {secs : List PageSection} {s : Slab} (hcache : (k.pools i).cache = [])
      (hpart : (k.pools i).partials = []) (hpage : pageAlloc k.secs = .ok (some page, secs))
      (hn : caculateNrObject page (u64 (page + 64)) (k.pools i).gfporder (k.pools i).size = .ok n)
      (hs : s = freshSlab page i (k.pools i).size n) :
      Taken k i (u64 s.objStart)
        { k with
          secs := secs
          pools := update k.pools i
            (takeObject { k.pools i with partials := [s] } [] s []) }

theorem caculateNrObject_pos {slab freelist order : Nat}
    (h : caculateNrObject slab freelist order size = .ok n) : 0 < n := by
  obtain ⟨bytes, -, h⟩ := ok_of_bind h
  unfold nrObjectIn at h
  dsimp only at h
  split at h
  · cases h
  · split at h
    · cases h
      omega
    · cases h

theorem freshSlab_head (page i size : Nat) (h : 0 < n) :
    (freshSlab page i size n).freelist[0]? = some 0 := by
  rw [freshSlab, List.getElem?_map, List.getElem?_range h]
  rfl

theorem reallocLoop_taken {fuel : Nat} (hcache : (k.pools i).cache = [])
    (hpart : (k.pools i).partials ≠ []) (h : reallocLoop i (fuel + 1) k = .ok (x, k')) :
    Taken k i x k' := by
  rw [reallocLoop] at h
  simp only [if_neg hpart] at h
  cases hsplit : splitFree (k.pools i).partials with
  | none =>
    rw [hsplit] at h
    cases h
  | some r =>
    obtain ⟨before, s, after⟩ := r
    rw [hsplit] at h
    dsimp only at h
    cases hindex : s.freelist[s.active]? with
    | none =>
      rw [hindex] at h
      cases h
    | some objIndex =>
      rw [hindex] at h
      cases h
      exact .take hcache hsplit hindex

theorem slabRefill_cases (h : slabRefill k i = .ok (some k')) :
    ∃ page secs n, pageAlloc k.secs = .ok (some page, secs) ∧
      caculateNrObject page (u64 (page + 64)) (k.pools i).gfporder (k.pools i).size = .ok n ∧
      k' = { k with
        secs := secs
        pools := update k.pools i { k.pools i with
          partials := freshSlab page i (k.pools i).size n :: (k.pools i).partials } } := by
  obtain ⟨⟨va, secs⟩, hpage, h⟩ := ok_of_bind h
  cases va with
  | none => cases h
  | some page =>
    obtain ⟨n, hn, h⟩ := ok_of_bind h
    cases h
    exact ⟨page, secs, n, hpage, hn, rfl⟩

/-- **`slab_alloc_pool`**, when it returns. -/
theorem slabAllocPool_taken (h : slabAllocPool k i = .ok (x, k')) : Taken k i x k' := by
  rw [slabAllocPool] at h
  cases hcache : (k.pools i).cache with
  | cons c rest =>
    rw [hcache] at h
    cases h
    exact .hit hcache
  | nil =>
    rw [hcache] at h
    dsimp only at h
    by_cases hpart : (k.pools i).partials = []
    · rw [reallocLoop] at h
      simp only [if_pos hpart] at h
      obtain ⟨r, hr, h⟩ := ok_of_bind h
      cases r with
      | none => cases h
      | some k1 =>
        obtain ⟨page, secs, n, hpage, hn, rfl⟩ := slabRefill_cases hr
        have hsplit : splitFree [freshSlab page i (k.pools i).size n] =
            some ([], freshSlab page i (k.pools i).size n, []) := if_pos (caculateNrObject_pos hn)
        have hindex : (freshSlab page i (k.pools i).size n).freelist[0]? = some 0 :=
          freshSlab_head page i _ (caculateNrObject_pos hn)
        have hactive : (freshSlab page i (k.pools i).size n).active = 0 := rfl
        -- the new slab heads the list in the second round
        simp only [reallocLoop, update_self, hpart, hsplit, hactive, hindex, reduceCtorEq,
          if_false, update_idem, Int.mul_zero, Int.add_zero] at h
        cases h
        exact .refill hcache hpart hpage hn rfl
    · exact reallocLoop_taken hcache hpart h

/-! ## What stays -/

/-- What `slab_pool_init` sets for good. -/
def kind (pool : SlabPool) : Nat × Nat × Nat := (pool.size, pool.objSize, pool.gfporder)

theorem takeObject_kind (pool : SlabPool) (before : List Slab) (s : Slab) (after : List Slab) :
    kind (takeObject pool before s after) = kind pool := by
  unfold takeObject
  dsimp only
  split <;> rfl

theorem kind_update {pools : Nat → SlabPool} {pool : SlabPool} (h : kind pool = kind (pools i))
    (j : Nat) : kind (update pools i pool j) = kind (pools j) := by
  by_cases hj : j = i
  · subst hj
    rw [update_self, h]
  · rw [update_of_ne hj]

/-- The pools that were there are there and of the same kind. -/
structure Keeps (k k' : Kmem) : Prop where
  nr : k.nrPools ≤ k'.nrPools
  kind : ∀ j < k.nrPools, kind (k'.pools j) = kind (k.pools j)

theorem Keeps.refl (k : Kmem) : Keeps k k := ⟨le_rfl, fun _ _ => rfl⟩

theorem Keeps.trans {k1 k2 k3 : Kmem} (h : Keeps k1 k2) (h' : Keeps k2 k3) : Keeps k1 k3 :=
  ⟨h.nr.trans h'.nr, fun j hj => (h'.kind j (hj.trans_le h.nr)).trans (h.kind j hj)⟩

theorem Taken.nrPools (h : Taken k i x k') : k'.nrPools = k.nrPools := by
  cases h <;> rfl

theorem Taken.keeps (h : Taken k i x k') : Keeps k k' := by
  refine ⟨h.nrPools.ge, fun j _ => ?_⟩
  cases h with
  | hit hcache =>
    refine kind_update ?_ j
    rfl
  | take hcache hsplit hindex => exact kind_update (takeObject_kind _ _ _ _) j
  | refill hcache hpart hpage hn hs => exact kind_update (takeObject_kind _ _ _ _) j

theorem pushCache_keeps (k : Kmem) (i node x : Nat) : Keeps k (pushCache k i node x) := by
  refine ⟨le_rfl, fun j _ => kind_update ?_ j⟩
  rfl

theorem slabPoolCreate_cases (h : slabPoolCreate k size = .ok (some k')) :
    ∃ x k1, Taken k 0 x k1 ∧ k1.nrPools < maxMemPools ∧ k' = { k1 with
      nrPools := k1.nrPools + 1
      pools := update k1.pools k1.nrPools (newPool size) } := by
  obtain ⟨⟨x, k1⟩, htake, h⟩ := ok_of_bind h
  dsimp only at h
  split at h
  · cases h
  · rename_i hlt
    cases h
    exact ⟨x, k1, slabAllocPool_taken htake, Nat.lt_of_not_le hlt, rfl⟩

theorem slabPoolCreate_keeps (h : slabPoolCreate k size = .ok (some k')) :
    Keeps k k' ∧ k'.nrPools = k.nrPools + 1 ∧ k'.pools k.nrPools = newPool size := by
  obtain ⟨x, k1, htake, -, rfl⟩ := slabPoolCreate_cases h
  have hnr := htake.nrPools
  refine ⟨htake.keeps.trans ⟨Nat.le_succ _, fun j hj => ?_⟩, by rw [hnr], ?_⟩
  · exact congrArg SlabPools.kind (update_of_ne (Nat.ne_of_lt hj) _ _)
  · rw [← hnr]
    exact update_self _ _ _

theorem slabAllocLoop_taken {r : Option Nat} (h : slabAllocLoop k bytes n i = .ok (r, k')) :
    k' = k ∨ ∃ j x, j < k.nrPools ∧ Taken k j x k' := by
  induction n generalizing i with
  | zero =>
    cases h
    exact .inl rfl
  | succ n ih =>
    rw [slabAllocLoop] at h
    split at h
    · cases h
    · rename_i hlt
      split at h
      · obtain ⟨⟨x, k1⟩, htake, h⟩ := ok_of_bind h
        cases h
        exact .inr ⟨i, x, Nat.lt_of_not_le hlt, slabAllocPool_taken htake⟩
      · exact ih h

theorem slabAlloc_taken {r : Option Nat} (h : slabAlloc k bytes = .ok (r, k')) :
    k' = k ∨ ∃ j x, j < k.nrPools ∧ Taken k j x k' := by
  unfold slabAlloc at h
  split at h
  · cases h
  · split at h
    · cases h
    · exact slabAllocLoop_taken h

/-- `slab_free` up to the end of its assertions: the header it finds. -/
def freeChecks (k : Kmem) (ptr : Nat) : Except Fault Slab :=
  match headerAt k (alignDown ptr 4096) with
  | none => .error .wildAccess
  | some slab =>
    if slab.magic ≠ slabMagic then .error (.assertion .slabFree)
    else if ¬ slab.objStart ≤ ptr then .error (.assertion .slabFree)
    else if ¬ slab.nrFree < slab.nrObj then .error (.assertion .slabFree)
    else if isAligned ptr (k.pools slab.pool).objSize = false then .error (.assertion .slabFree)
    else .ok slab

theorem slabFree_split (k : Kmem) (ptr : Nat) :
    slabFree k ptr = (do
      let slab ← freeChecks k ptr
      let (node, k') ← slabAllocPool k 1
      .ok (pushCache k' slab.pool node ptr)) := by
  unfold slabFree freeChecks
  cases headerAt k (alignDown ptr 4096) with
  | none => rfl
  | some slab =>
    dsimp only
    split_ifs <;> rfl

theorem slabFree_cases {ptr : Nat} (h : slabFree k ptr = .ok k') :
    ∃ slab node k1, freeChecks k ptr = .ok slab ∧ Taken k 1 node k1 ∧
      k' = pushCache k1 slab.pool node ptr := by
  rw [slabFree_split] at h
  obtain ⟨slab, hcheck, h⟩ := ok_of_bind h
  obtain ⟨⟨node, k1⟩, htake, h⟩ := ok_of_bind h
  cases h
  exact ⟨slab, node, k1, hcheck, slabAllocPool_taken htake, rfl⟩

/-! ## Runs -/

/-- The calls of the allocator. A creation that fails because there are too many pools has taken
an object of the root pool and done nothing else. -/
inductive PoolOp
  | create (objsize : Int)
  | allocPool (i : Nat)
  | alloc (bytes : Int)
  | free (ptr : Nat)
  deriving DecidableEq, Repr

/-- `slab_pool_create` for any `int`. The size of a pool counts from 0 on: a smaller one is below
every request that gets as far as the pool, and no slab can be made for it. -/
def createPool (k : Kmem) (objsize : Int) : Except Fault (Option Kmem) :=
  slabPoolCreate k objsize.toNat

def pstep (k : Kmem) : PoolOp → Option Kmem
  | .create objsize => (createPool k objsize).toOption.join
  | .allocPool i => (slabAllocPool k i).toOption.map Prod.snd
  | .alloc bytes => (slabAlloc k bytes).toOption.map Prod.snd
  | .free ptr => (slabFree k ptr).toOption

/-- Objects are taken from registered pools, and only objects are freed. -/
def pok (k : Kmem) : PoolOp → Prop
  | .allocPool i => i < k.nrPools
  | .free ptr => ∃ i < k.nrPools, IsObj (k.pools i) ptr
  | _ => True

theorem pstep_cases {op : PoolOp} (hop : pok k op) (h : pstep k op = some k') :
    (∃ objsize : Int, slabPoolCreate k objsize.toNat = .ok (some k')) ∨ k' = k ∨
    (∃ i x, i < k.nrPools ∧ Taken k i x k') ∨
    ∃ ptr slab node k1, (∃ i < k.nrPools, IsObj (k.pools i) ptr) ∧
      freeChecks k ptr = .ok slab ∧ Taken k 1 node k1 ∧ k' = pushCache k1 slab.pool node ptr := by
  cases op with
  | create objsize =>
    exact .inl ⟨objsize, ok_of_toOption (Option.join_eq_some_iff.1 h)⟩
  | allocPool i =>
    obtain ⟨⟨x, k1⟩, hr, rfl⟩ := Option.map_eq_some_iff.1 h
    exact .inr (.inr (.inl ⟨i, x, hop, slabAllocPool_taken (ok_of_toOption hr)⟩))
  | alloc bytes =>
    obtain ⟨⟨r, k1⟩, hr, rfl⟩ := Option.map_eq_some_iff.1 h
    rcases slabAlloc_taken (ok_of_toOption hr) with hsame | ⟨j, x, hj, htake⟩
    · exact .inr (.inl hsame)
    · exact .inr (.inr (.inl ⟨j, x, hj, htake⟩))
  | free ptr =>
    obtain ⟨slab, node, k1, hrest⟩ := slabFree_cases (ok_of_toOption h)
    exact .inr (.inr (.inr ⟨ptr, slab, node, k1, hop, hrest⟩))

theorem pstep_keeps {op : PoolOp} (hop : pok k op) (h : pstep k op = some k') : Keeps k k' := by
  rcases pstep_cases hop h with ⟨_, hcreate⟩ | rfl | ⟨i, x, -, htake⟩ |
    ⟨ptr, slab, node, k1, -, -, htake, rfl⟩
  · exact (slabPoolCreate_keeps hcreate).1
  · exact .refl _
  · exact htake.keeps
  · exact htake.keeps.trans (pushCache_keeps _ _ _ _)

theorem steps_keeps {k0 : Kmem} (h : Steps pstep pok k0 k) : Keeps k0 k :=
  h.invariant (.refl k0) fun _ _ _ hk hop hstep => hk.trans (pstep_keeps hop hstep)

/-! ## The general pools -/

/-- The general pools are registered one behind the other, in the order of their sizes. -/
structure General (k : Kmem) : Prop where
  nr : normalPoolStart + generalPools.length ≤ k.nrPools
  root : (k.pools 0).objSize = 64
  size : ∀ j z, generalPools[j]? = some z → (k.pools (normalPoolStart + j)).objSize = z

theorem Keeps.objSize (h : Keeps k k') (hj : j < k.nrPools) :
    (k'.pools j).objSize = (k.pools j).objSize :=
  congrArg (fun t => t.2.1) (h.kind j hj)

theorem General.keeps (h : General k) (hk : Keeps k k') : General k' := by
  refine ⟨h.nr.trans hk.nr, (hk.objSize ?_).trans h.root, fun j z hz => ?_⟩
  · exact Nat.lt_of_lt_of_le (by decide) h.nr
  · have hj := (List.getElem?_eq_some_iff.1 hz).1
    have hnr := h.nr
    rw [hk.objSize (by omega), h.size j z hz]

theorem createPools_keeps {sizes : List Nat} (h : createPools sizes k = .ok (some k')) :
    Keeps k k' ∧ k'.nrPools = k.nrPools + sizes.length ∧
      ∀ j z, sizes[j]? = some z → (k'.pools (k.nrPools + j)).objSize = z := by
  induction sizes generalizing k with
  | nil =>
    cases h
    exact ⟨.refl _, rfl, fun j z hz => by cases hz⟩
  | cons size rest ih =>
    obtain ⟨r, hr, h⟩ := ok_of_bind h
    cases r with
    | none => cases h
    | some k1 =>
      obtain ⟨hkeeps, hnr, hnew⟩ := slabPoolCreate_keeps hr
      obtain ⟨hkeeps', hnr', hsizes⟩ := ih h
      refine ⟨hkeeps.trans hkeeps', by rw [hnr', hnr, List.length_cons]; omega, fun j z hz => ?_⟩
      cases j with
      | zero =>
        cases hz
        rw [Nat.add_zero, hkeeps'.objSize (by omega), hnew]
        rfl
      | succ j =>
        have hrest := hsizes j z hz
        rwa [hnr, Nat.add_right_comm] at hrest

theorem initSlab_general {secs : List PageSection} (h : initSlab secs = .ok (some k)) :
    General k ∧ k.nrPools = normalPoolStart + generalPools.length := by
  obtain ⟨hkeeps, hnr, hsizes⟩ := createPools_keeps h
  exact ⟨⟨hnr.ge, hkeeps.objSize Nat.zero_lt_two, hsizes⟩, hnr⟩

/-! ## The search of `slab_alloc` -/

/-- The places of `pool_ptrs` that the loop reads. -/
def examined (k : Kmem) (bytes : Int) : Nat → Nat → List Nat
  | 0, _ => []
  | n + 1, i =>
    i :: if k.nrPools ≤ i ∨ ((k.pools i).objSize : Int) ≥ bytes then []
      else examined k bytes n (i + 1)

def slabAllocExamines (k : Kmem) (bytes : Int) : List Nat :=
  examined k bytes (generalPools.length + 1) normalPoolStart

theorem search_skip (m n i : Nat)
    (h : ∀ j < m, i + j < k.nrPools ∧ ((k.pools (i + j)).objSize : Int) < bytes) :
    slabAllocLoop k bytes (m + n) i = slabAllocLoop k bytes n (i + m) ∧
      examined k bytes (m + n) i = List.range' i m ++ examined k bytes n (i + m) := by
  induction m generalizing i with
  | zero =>
    rw [Nat.zero_add, Nat.add_zero]
    exact ⟨rfl, rfl⟩
  | succ m ih =>
    obtain ⟨hlt, hsmall⟩ := h 0 (Nat.succ_pos m)
    rw [Nat.add_zero] at hlt hsmall
    have hrest := ih (i + 1) fun j hj => by
      rw [Nat.add_assoc, Nat.add_comm 1 j]
      exact h (j + 1) (Nat.succ_lt_succ hj)
    rw [Nat.add_assoc i 1 m, Nat.add_comm 1 m] at hrest
    rw [Nat.succ_add, slabAllocLoop, examined, if_neg (Nat.not_le.2 hlt),
      if_neg (Int.not_le.2 hsmall),
      if_neg (not_or.2 ⟨Nat.not_le.2 hlt, Int.not_le.2 hsmall⟩), hrest.1, hrest.2]
    exact ⟨rfl, rfl⟩

/-- `slab_alloc_pool` on pool `i`, as `slab_alloc` passes its result on. -/
def fromPool (k : Kmem) (i : Nat) : Except Fault (Option Nat × Kmem) := do
  let (obj, k') ← slabAllocPool k i
  .ok (some obj, k')

/-- Pool `j` of `generalPools` is the smallest one for `bytes`. -/
def Smallest (bytes : Int) (j : Nat) : Prop :=
  ∃ z, generalPools[j]? = some z ∧ bytes ≤ z ∧ ∀ y ∈ generalPools, bytes ≤ (y : Int) → z ≤ y

/-- Only the places of the general pools are read. -/
def OnlyGeneral (k : Kmem) (bytes : Int) : Prop :=
  ∀ i ∈ slabAllocExamines k bytes,
    normalPoolStart ≤ i ∧ i < normalPoolStart + generalPools.length ∧ i < k.nrPools

/-- The object is one of the smallest general pool that serves, and `NULL` is returned if none
does. -/
def FromSmallest (k : Kmem) (bytes : Int) : Prop :=
  (∀ j, Smallest bytes j → slabAlloc k bytes = fromPool k (normalPoolStart + j)) ∧
    ((∀ z ∈ generalPools, (z : Int) < bytes) → slabAlloc k bytes = .ok (none, k))

theorem generalPools_sorted : generalPools.Pairwise (· < ·) := by decide

theorem generalPools_le : ∀ z ∈ generalPools, z ≤ 512 := by decide

theorem Smallest.before (h : Smallest bytes j) :
    ∀ l < j, ∃ y, generalPools[l]? = some y ∧ (y : Int) < bytes := by
  obtain ⟨z, hz, -, hleast⟩ := h
  obtain ⟨hj, hz⟩ := List.getElem?_eq_some_iff.1 hz
  intro l hl
  have hlt := List.pairwise_iff_getElem.1 generalPools_sorted l j (hl.trans hj) hj hl
  refine ⟨generalPools[l], List.getElem?_eq_getElem _, Int.not_le.1 fun hle => ?_⟩
  have := hleast _ (List.getElem_mem _) hle
  omega

theorem exists_smallest (h : bytes ≤ 512) : ∃ j, Smallest bytes j := by
  let p : Nat → Bool := fun z => bytes ≤ (z : Int)
  have hj : generalPools.findIdx p < generalPools.length :=
    List.findIdx_lt_length_of_exists ⟨512, by decide, decide_eq_true h⟩
  refine ⟨generalPools.findIdx p, _, List.getElem?_eq_getElem hj,
    of_decide_eq_true (List.findIdx_getElem (w := hj)), fun y hy hley => ?_⟩
  obtain ⟨l, hl, rfl⟩ := List.mem_iff_getElem.1 hy
  rcases Nat.lt_trichotomy l (generalPools.findIdx p) with hlt | heq | hgt
  · exact absurd hley (of_decide_eq_false (List.not_of_lt_findIdx hlt))
  · simp only [heq, le_refl]
  · exact (List.pairwise_iff_getElem.1 generalPools_sorted _ l hj hl hgt).le

theorem slabAlloc_loop (h : General k) (hbytes : bytes < 4096) :
    slabAlloc k bytes = slabAllocLoop k bytes (generalPools.length + 1) normalPoolStart := by
  have hnr := h.nr
  rw [slabAlloc, if_neg (Int.not_le.2 hbytes), if_neg]
  rw [h.root]
  rintro (hzero | hzero)
  · rw [hzero] at hnr
    exact absurd hnr (by decide)
  · exact absurd hzero (by decide)

theorem General.skip (h : General k) (hj : j + n = 8) (hlen : j ≤ 7)
    (hbefore : ∀ l < j, ∃ y, generalPools[l]? = some y ∧ (y : Int) < bytes) :
    slabAllocLoop k bytes 8 normalPoolStart = slabAllocLoop k bytes n (normalPoolStart + j) ∧
      slabAllocExamines k bytes =
        List.range' normalPoolStart j ++ examined k bytes n (normalPoolStart + j) := by
  have hnr : 9 ≤ k.nrPools := h.nr
  have hpass : ∀ l < j, normalPoolStart + l < k.nrPools ∧
      ((k.pools (normalPoolStart + l)).objSize : Int) < bytes := by
    intro l hl
    obtain ⟨y, hy, hlt⟩ := hbefore l hl
    refine ⟨by unfold normalPoolStart; omega, ?_⟩
    rw [h.size l y hy]
    exact hlt
  have hskip := search_skip j n normalPoolStart hpass
  rw [hj] at hskip
  exact hskip

theorem General.found (h : General k) (hbytes : bytes < 4096) (hj : Smallest bytes j) :
    slabAlloc k bytes = fromPool k (normalPoolStart + j) ∧
      slabAllocExamines k bytes = List.range' normalPoolStart (j + 1) := by
  obtain ⟨z, hz, hle, -⟩ := id hj
  have hlt : j < 7 := (List.getElem?_eq_some_iff.1 hz).1
  have hnr : 9 ≤ k.nrPools := h.nr
  have hin : ¬ k.nrPools ≤ normalPoolStart + j := by
    unfold normalPoolStart
    omega
  have hserves : ((k.pools (normalPoolStart + j)).objSize : Int) ≥ bytes := by
    rw [h.size j z hz]
    exact hle
  obtain ⟨hloop, hexam⟩ := h.skip (n := 7 - j + 1) (by omega) hlt.le hj.before
  rw [slabAlloc_loop h hbytes, List.range'_concat, Nat.one_mul]
  refine ⟨hloop.trans ?_, hexam.trans ?_⟩
  · rw [slabAllocLoop, if_neg hin, if_pos hserves]
    rfl
  · rw [examined, if_pos (.inr hserves)]

theorem General.beyond (h : General k) (hbytes : bytes < 4096) (hbig : 512 < bytes) :
    slabAlloc k bytes = slabAllocLoop k bytes 1 9 ∧ 9 ∈ slabAllocExamines k bytes := by
  have hbefore : ∀ l < 7, ∃ y : Nat, generalPools[l]? = some y ∧ (y : Int) < bytes := by
    intro l hl
    have hmax := generalPools_le _ (List.getElem_mem (show l < generalPools.length from hl))
    exact ⟨_, List.getElem?_eq_getElem hl, by omega⟩
  obtain ⟨hloop, hexam⟩ := h.skip (n := 1) rfl le_rfl hbefore
  rw [slabAlloc_loop h hbytes]
  refine ⟨hloop, ?_⟩
  rw [hexam]
  exact List.mem_append_right _ List.mem_cons_self

theorem General.onlyGeneral_iff (h : General k) (hbytes : bytes < 4096) :
    OnlyGeneral k bytes ↔ bytes ≤ 512 := by
  refine ⟨fun honly => Int.not_lt.1 fun hbig => ?_, fun hle => ?_⟩
  · exact absurd (honly 9 (h.beyond hbytes hbig).2).2.1 (by decide)
  · obtain ⟨j, hj⟩ := exists_smallest hle
    obtain ⟨z, hz, -⟩ := id hj
    have hlt : j < 7 := (List.getElem?_eq_some_iff.1 hz).1
    have hnr : 9 ≤ k.nrPools := h.nr
    intro i hi
    rw [(h.found hbytes hj).2, List.mem_range'_1] at hi
    unfold normalPoolStart at hi ⊢
    rw [show generalPools.length = 7 from rfl]
    omega

theorem General.fromSmallest_iff (h : General k) (hbytes : bytes < 4096) :
    FromSmallest k bytes ↔
      bytes ≤ 512 ∨ 9 < k.nrPools ∧ ((k.pools 9).objSize : Int) < bytes := by
  rcases Int.lt_or_le 512 bytes with hbig | hle
  · have hnone : ∀ z ∈ generalPools, (z : Int) < bytes := fun z hz => by
      have := generalPools_le z hz
      omega
    have hsearch : slabAlloc k bytes = .ok (none, k) ↔
        9 < k.nrPools ∧ ((k.pools 9).objSize : Int) < bytes := by
      rw [(h.beyond hbytes hbig).1, slabAllocLoop]
      split
      · rename_i hnull
        exact ⟨nofun, fun hcond => absurd hcond.1 (Nat.not_lt.2 hnull)⟩
      · rename_i hnr
        split
        · rename_i hserves
          refine ⟨fun hrun => ?_, fun hcond => absurd hcond.2 (Int.not_lt.2 hserves)⟩
          obtain ⟨⟨x, k1⟩, -, hret⟩ := ok_of_bind hrun
          cases hret
        · rename_i hpass
          exact ⟨fun _ => ⟨Nat.lt_of_not_le hnr, Int.not_le.1 hpass⟩, fun _ => rfl⟩
    refine ⟨fun hright => .inr (hsearch.1 (hright.2 hnone)), fun hcond => ⟨?_, fun _ => ?_⟩⟩
    · rintro j ⟨z, hz, hserves, -⟩
      have := generalPools_le z (List.mem_of_getElem? hz)
      omega
    · exact hsearch.2 (hcond.resolve_left (Int.not_le.2 hbig))
  · refine ⟨fun _ => .inl hle, fun _ => ⟨fun j hj => (h.found hbytes hj).1, fun hall => ?_⟩⟩
    exact absurd (hall 512 (by decide)) (Int.not_lt.2 hle)

/-- **`slab_alloc`**, after any calls of the allocator: it keeps to the general pools and serves
from the smallest one exactly up to 512 bytes. Beyond that it reads the place behind the general
pools, and returns `NULL` only if a pool with smaller objects is registered there. -/
theorem slab_alloc_general_iff (secs : List PageSection) {k0 k : Kmem}
    (hinit : initSlab secs = .ok (some k0)) (hrun : Steps pstep pok k0 k) (bytes : Int)
    (hbytes : bytes < 4096) :
    (OnlyGeneral k bytes ∧ FromSmallest k bytes ↔ bytes ≤ 512) ∧
      (FromSmallest k bytes ↔
        bytes ≤ 512 ∨ 9 < k.nrPools ∧ ((k.pools 9).objSize : Int) < bytes) := by
  have hgeneral := (initSlab_general hinit).1.keeps (steps_keeps hrun)
  have honly := hgeneral.onlyGeneral_iff hbytes
  have hsmallest := hgeneral.fromSmallest_iff hbytes
  refine ⟨⟨fun h => honly.1 h.1, fun h => ⟨honly.2 h, hsmallest.2 (.inl h)⟩⟩, hsmallest⟩

theorem slab_alloc_general_hundred :
    ∃ k0 k, initSlab (sections PageRuns.smallSection) = .ok (some k0) ∧
      pstep k0 (.create 1024) = some k ∧ OnlyGeneral k 100 ∧ FromSmallest k 100 := by
  have hstart : (smallHeap.bind fun k0 => pstep k0 (.create 1024)).isSome = true := by
    decide +kernel
  obtain ⟨k, hk⟩ := Option.isSome_iff_exists.1 hstart
  obtain ⟨k0, hheap, hstep⟩ := Option.bind_eq_some_iff.1 hk
  have hinit := initSlab_of_smallHeap hheap
  have hrun : Steps pstep pok k0 k := .tail (.create 1024) .refl trivial hstep
  have hright := (slab_alloc_general_iff _ hinit hrun 100 (by decide)).1.2 (by decide)
  exact ⟨k0, k, hinit, hstep, hright⟩

/-- What `slab_alloc` stops with. -/
def stopOf (r : Except Fault (Option Nat × Kmem)) : Option Fault :=
  match r with
  | .error e => some e
  | .ok _ => none

/-- For 513 bytes the search follows the null pointer behind the general pools; with a pool of
1024 bytes there, it returns an object of that pool. -/
theorem slab_alloc_past_general :
    (smallHeap.bind fun k => stopOf (slabAlloc k 513)) = some .nullDeref ∧
    (smallHeap.bind fun k => (pstep k (.create 1024)).bind fun k1 =>
      (slabAlloc k1 513).toOption.bind fun r => (slabAllocPool k1 9).toOption.map fun r' =>
        (r.1.isSome, r.1 == some r'.1)) = some (true, true) := by
  decide +kernel

end SpringOs.SlabPools
