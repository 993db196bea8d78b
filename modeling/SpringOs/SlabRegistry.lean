import SpringOs.Lib.Bytes
import SpringOs.SlabSizes

/-!
The table `pool_ptrs` of `src/slab.c`, byte by byte. `slab_pool_free` takes a pool out of it with a
`memmove` whose length counts pointers where it should count bytes.

* **`slabPoolFree`**: the function, and `unregister` its part in front of `slab_free`;
* `ptr_removed`, `ptr_removed_low`: what the move leaves;
* `made_valid`: the registries that `init_slab` and `slab_pool_create` make hold distinct pointers;
* `slab_pool_free_table_iff`: the table is right exactly if the pool was the last one, or the last
  but one and its pointer differs from the last one in the lowest byte only.
-/

namespace SpringOs.SlabRegistry
open Lib.Word Lib.Machine Lib.Bytes Kernel PageAlloc PageRuns SlabAlloc Heap SlabPools SlabSizes
open Function (update update_self update_of_ne)

/-! ## The table -/

/-- The pools of `heap` are numbered in the order of their creation, and pool `i` is the structure
at `addr i`. `table` is the memory from `pool_ptrs` on, `nrPools` is `nr_pools`. -/
structure Registry where
  heap : Kmem
  addr : Nat → Nat
  table : Nat → Byte
  nrPools : Nat

/-- `pool_ptrs[j]`. -/
def Registry.ptr (r : Registry) (j : Nat) : Nat := ofBytes (fun b => r.table (8 * j + b)) 8

/-- The table as the loops over it read it. -/
def Registry.ptrs (r : Registry) : List Nat := (List.range r.nrPools).map r.ptr

/-- `memmove` inside the table. -/
def memmove (table : Nat → Byte) (dst src n : Nat) : Nat → Byte :=
  put table dst (fun b => table (src + b)) n

/-- The table and `nr_pools` once the pointer at `idx` has been taken out. -/
def Registry.removed (r : Registry) (idx : Nat) : Registry :=
  { r with
    table := memmove r.table (8 * idx) (8 * (idx + 1)) (r.nrPools - idx - 1)
    nrPools := r.nrPools - 1 }

/-- `slab_pool_free` of a pool without freed objects, in front of the call of `slab_free`. -/
def unregister (r : Registry) (i : Nat) : Except Fault Registry :=
  match (List.range r.nrPools).find? fun j => r.ptr j = r.addr i with
  | none => .error (.assertion .slabPoolFree)
  | some idx =>
    if idx > 0 then .ok (r.removed idx) else .error (.assertion .slabPoolFree)

/-- `slab_pool_free`. The address of the member `full` is never null. -/
def slabPoolFree (r : Registry) (i : Nat) : Except Fault Registry :=
  let pool := r.heap.pools i
  if r.addr i = 0 then .error (.assertion .slabPoolFree)
  else if pool.cache = [] ∧ pool.partials ≠ [] then .error (.assertion .slabPoolFree)
  else if pool.cache ≠ [] then .ok r
  else do
    let r ← unregister r i
    let heap ← slabFree r.heap (r.addr i)
    .ok { r with heap := heap }

/-! ## What the move leaves -/

variable {r : Registry} {idx j : Nat}

theorem removed_inside {b : Nat} (h : b < r.nrPools - idx - 1) :
    (r.removed idx).table (8 * idx + b) = r.table (8 * (idx + 1) + b) :=
  put_inside r.table (8 * idx) (fun b => r.table (8 * (idx + 1) + b)) h

theorem removed_outside {a : Nat} (h : a < 8 * idx ∨ 8 * idx + (r.nrPools - idx - 1) ≤ a) :
    (r.removed idx).table a = r.table a :=
  put_outside r.table (fun b => r.table (8 * (idx + 1) + b)) h

/-- An entry of which no byte is moved. -/
theorem ptr_removed (h : j < idx ∨ 8 * idx + (r.nrPools - idx - 1) ≤ 8 * j) :
    (r.removed idx).ptr j = r.ptr j :=
  ofBytes_congr fun _ _ => removed_outside (by omega)

theorem ptr_split (r : Registry) (j : Nat) : r.ptr j =
    (r.table (8 * j)).toNat + 256 * ofBytes (fun b => r.table (8 * j + (b + 1))) 7 :=
  ofBytes_cons (fun b => r.table (8 * j + b)) 7

/-- With one pointer behind it, only the lowest byte of an entry is moved. -/
theorem ptr_removed_low (h : idx + 2 = r.nrPools) :
    (r.removed idx).ptr idx = r.ptr idx / 256 * 256 + r.ptr (idx + 1) % 256 := by
  have hlow : (r.removed idx).table (8 * idx) = r.table (8 * (idx + 1)) :=
    removed_inside (show 0 < r.nrPools - idx - 1 by omega)
  have hhigh : ∀ b < 7, (r.removed idx).table (8 * idx + (b + 1)) = r.table (8 * idx + (b + 1)) :=
    fun b _ => removed_outside (by omega)
  have hbyte := (r.table (8 * (idx + 1))).isLt
  have hbyte' := (r.table (8 * idx)).isLt
  rw [ptr_split, ptr_split r idx, ptr_split r (idx + 1), hlow, ofBytes_congr hhigh]
  omega

theorem length_ptrs (r : Registry) : r.ptrs.length = r.nrPools := by
  rw [Registry.ptrs, List.length_map, List.length_range]

theorem getElem_ptrs (h : j < r.ptrs.length) : r.ptrs[j] = r.ptr j := by
  simp only [Registry.ptrs, List.getElem_map, List.getElem_range]

theorem ptrs_removed_iff (hidx : idx < r.nrPools) :
    (r.removed idx).ptrs = r.ptrs.eraseIdx idx ↔
      ∀ j, idx ≤ j → j + 1 < r.nrPools → (r.removed idx).ptr j = r.ptr (j + 1) := by
  have hlen : (r.ptrs.eraseIdx idx).length = r.nrPools - 1 := by
    rw [List.length_eraseIdx, length_ptrs, if_pos hidx]
  have hlen' : (r.removed idx).ptrs.length = r.nrPools - 1 := length_ptrs _
  constructor
  · intro heq j hle hj
    have hj' : j < (r.removed idx).ptrs.length := by omega
    have hentry : (r.removed idx).ptrs[j] = (r.ptrs.eraseIdx idx)[j] := by simp only [heq]
    rw [getElem_ptrs, List.getElem_eraseIdx, dif_neg (Nat.not_lt.2 hle), getElem_ptrs] at hentry
    exact hentry
  · intro hmoved
    refine List.ext_getElem (hlen'.trans hlen.symm) fun j hj _ => ?_
    rw [getElem_ptrs, List.getElem_eraseIdx]
    split
    · rename_i hlt
      rw [getElem_ptrs, ptr_removed (.inl hlt)]
    · rename_i hge
      rw [getElem_ptrs]
      exact hmoved j (Nat.not_lt.1 hge) (by omega)

/-- The pointer at `idx` can be taken out. -/
def Removable (r : Registry) (idx : Nat) : Prop :=
  idx + 1 = r.nrPools ∨ idx + 2 = r.nrPools ∧ r.ptr idx / 256 = r.ptr (idx + 1) / 256

theorem ptr_inj (hdistinct : r.ptrs.Nodup) {l : Nat} (hj : j < r.nrPools) (hl : l < r.nrPools)
    (heq : r.ptr j = r.ptr l) : j = l :=
  List.inj_on_of_nodup_map hdistinct (List.mem_range.2 hj) (List.mem_range.2 hl) heq

theorem removed_right_iff (hdistinct : r.ptrs.Nodup) (hidx : idx < r.nrPools) :
    (r.removed idx).ptrs = r.ptrs.eraseIdx idx ↔ Removable r idx := by
  rw [ptrs_removed_iff hidx]
  rcases Nat.lt_trichotomy (idx + 2) r.nrPools with hmore | hone | hlast
  · -- two or more behind it: the last entry that stays is not reached by the move
    have hne : r.ptr (r.nrPools - 2) ≠ r.ptr (r.nrPools - 2 + 1) := by
      intro heq
      have hsame := ptr_inj hdistinct (by omega) (by omega) heq
      omega
    refine ⟨fun hmoved => absurd ?_ hne, fun hcond => ?_⟩
    · rw [← hmoved (r.nrPools - 2) (by omega) (by omega)]
      exact (ptr_removed (.inr (by omega))).symm
    · unfold Removable at hcond
      omega
  · have hlow := ptr_removed_low hone
    constructor
    · intro hmoved
      have heq := hmoved idx le_rfl (by omega)
      exact .inr ⟨hone, by omega⟩
    · rintro (hcond | ⟨-, hcond⟩) j hle hj
      · omega
      · obtain rfl : j = idx := by omega
        omega
  · exact ⟨fun _ => .inl (by omega), fun _ j hle hj => by omega⟩

/-! ## `slab_pool_free` -/

/-- The pointers of a registry are those of different structures. -/
structure Valid (r : Registry) : Prop where
  nodup : r.ptrs.Nodup
  nonnull : 0 ∉ r.ptrs

theorem Valid.find_ptr (h : Valid r) (hidx : idx < r.nrPools) {p : Nat} (hp : r.ptr idx = p) :
    (List.range r.nrPools).find? (fun j => r.ptr j = p) = some idx := by
  cases hfind : (List.range r.nrPools).find? (fun j => r.ptr j = p) with
  | none =>
    have hnone := List.find?_eq_none.1 hfind idx (List.mem_range.2 hidx)
    exact absurd (decide_eq_true hp) hnone
  | some l =>
    have hl := List.mem_range.1 (List.mem_of_find?_eq_some hfind)
    have hfound := List.find?_some hfind
    rw [ptr_inj h.nodup hl hidx ((of_decide_eq_true hfound).trans hp.symm)]

theorem Valid.erase_ptr (h : Valid r) (hidx : idx < r.nrPools) :
    r.ptrs.erase (r.ptr idx) = r.ptrs.eraseIdx idx := by
  have hlt : idx < r.ptrs.length := by rwa [length_ptrs]
  rw [← getElem_ptrs hlt]
  exact h.nodup.erase_getElem idx hlt

/-! ## The registries that are made -/

/-- `pool_ptrs[nr_pools++] = pool`, for the pool with the number `i`. -/
def Registry.register (r : Registry) (i p : Nat) : Registry :=
  { r with
    addr := update r.addr i p
    table := put r.table (8 * r.nrPools) (byteOf p) 8
    nrPools := r.nrPools + 1 }

/-- `slab_pool_create`. -/
def Registry.create (r : Registry) (objsize : Nat) : Except Fault (Option Registry) := do
  let (p, heap) ← slabAllocPool r.heap 0
  if maxMemPools ≤ r.nrPools then .ok none
  else .ok (some (Registry.register { r with heap := { heap with
    nrPools := heap.nrPools + 1
    pools := update heap.pools heap.nrPools (newPool objsize) } } heap.nrPools p))

/-- The start of `init_slab`: the two static pools, at their addresses. -/
def startRegistry (secs : List PageSection) (root cache : Nat) : Registry :=
  Registry.register (Registry.register
    { heap := ⟨secs, 2, fun i => if i = 0 then rootPool else cachePool⟩
      addr := fun _ => 0
      table := fun _ => 0
      nrPools := 0 } 0 root) 1 cache

def rstep (r : Registry) (objsize : Nat) : Option Registry := (r.create objsize).toOption.join

theorem ptr_register_old (i p : Nat) (hj : j < r.nrPools) : (r.register i p).ptr j = r.ptr j :=
  ofBytes_congr fun _ _ => put_outside r.table (byteOf p) (by omega)

theorem ptr_register_new (r : Registry) (i : Nat) {p : Nat} (hp : p < 2 ^ 64) :
    (r.register i p).ptr r.nrPools = p := by
  have hbytes : (r.register i p).ptr r.nrPools = ofBytes (byteOf p) 8 :=
    ofBytes_congr fun _ hb => put_inside r.table (8 * r.nrPools) (byteOf p) hb
  rw [hbytes, ofBytes_byteOf]
  exact Nat.mod_eq_of_lt hp

theorem ptrs_register (r : Registry) (i : Nat) {p : Nat} (hp : p < 2 ^ 64) :
    (r.register i p).ptrs = r.ptrs ++ [p] := by
  have hold : (List.range r.nrPools).map (r.register i p).ptr = r.ptrs :=
    List.map_congr_left fun j hj => ptr_register_old i p (List.mem_range.1 hj)
  change (List.range (r.nrPools + 1)).map (r.register i p).ptr = _
  rw [List.range_succ, List.map_append, hold, List.map_singleton, ptr_register_new r i hp]

variable {ps : PageSection} {k k' : Kmem} {i x : Nat}

theorem obj_unique {pool : SlabPool} (h : PoolFits i pool) {s t : Slab} (hs : s ∈ pool.slabs)
    (ht : t ∈ pool.slabs) {j l : Nat} (hj : j < s.nrObj) (hl : l < t.nrObj)
    (heq : s.objStart + pool.size * j = t.objStart + pool.size * l) : s = t ∧ j = l := by
  have hlaid := h.slabs s hs
  obtain ⟨h1, h2⟩ := hlaid.obj_bounds hj
  obtain ⟨h3, h4⟩ := (h.slabs t ht).obj_bounds hl
  have hpos := hlaid.pos
  obtain rfl : s = t := List.inj_on_of_nodup_map h.pages hs ht
    (page_eq_of_close (x := s.objStart + pool.size * j) hlaid.aligned (h.slabs t ht).aligned
      (by omega) (by omega) (by omega) (by omega))
  exact ⟨rfl, Nat.eq_of_mul_eq_mul_left hpos (Nat.add_left_cancel heq)⟩

theorem taken_fresh (h : Inv ps k) (hi : i < k.nrPools) (ht : Taken k i x k')
    (hcache : (k.pools i).cache = []) : ¬ IsObj (k.pools i) x ∧ (k'.pools i).cache = [] := by
  rcases h.taken_cases hi ht with ⟨c, rest, hcons, -⟩ |
    ⟨-, ps', kh, s, rest, hinv, -, hnr, hcache', hpart, hobjs, rfl, rfl⟩
  · rw [hcache] at hcons
    cases hcons
  · have hi' : i < kh.nrPools := hnr ▸ hi
    have hfits := hinv.pools i hi'
    refine ⟨fun hobj => ?_, ?_⟩
    · obtain ⟨t, ht, j, hj, heq⟩ := hobjs i _ hobj
      have hs : s ∈ (kh.pools i).slabs := by
        rw [slabs_eq_cons hpart]
        exact List.mem_cons_self
      have htaken := (hfits.slabs t ht).taken
      obtain ⟨hst, hindex⟩ := obj_unique hfits hs ht (hinv.takeHead hi' hpart).2.2.1 (by omega) heq
      subst hst
      omega
    · dsimp only
      rw [update_self, takeObject_cache, hcache']

theorem obj_bounds (h : Inv ps k) (hi : i < k.nrPools) (hx : IsObj (k.pools i) x) :
    kernelAddrMask + ps.paBase < x ∧ x < 2 ^ 64 := by
  obtain ⟨s, hs, j, hj, rfl⟩ := hx
  have hlaid := (h.pools i hi).slabs s hs
  have htaken := hlaid.taken
  obtain ⟨hlow, hhigh⟩ := hlaid.obj_bounds (show j < s.nrObj by omega)
  obtain ⟨pos, hpos, -, hpage⟩ := h.backed i hi s hs
  rw [h.placed.pageVa_eq (by omega)] at hpage
  have htop := hlaid.top
  omega

/-- What the registries have in common that are made before a pool is freed: behind the static
pools, the table holds objects of the root pool. -/
structure Made (ps : PageSection) (root cache : Nat) (r : Registry) : Prop where
  inv : Inv ps r.heap
  nr : r.nrPools = r.heap.nrPools
  fresh : (r.heap.pools 0).cache = []
  ptrs : ∃ objs, r.ptrs = root :: cache :: objs ∧ objs.Nodup ∧
    ∀ p ∈ objs, IsObj (r.heap.pools 0) p

variable {root cache objsize : Nat} {r' : Registry}

theorem Made.valid {r : Registry} (h : Made ps root cache r) (hroot : 0 < root) (hcache : 0 < cache)
    (hne : root ≠ cache) (hlow : root ≤ kernelAddrMask + ps.paBase)
    (hlow' : cache ≤ kernelAddrMask + ps.paBase) : Valid r := by
  obtain ⟨objs, hptrs, hnodup, hobjs⟩ := h.ptrs
  have hzero : 0 < r.heap.nrPools := Nat.lt_of_lt_of_le Nat.zero_lt_two h.inv.two
  have hhigh : ∀ p ∈ objs, kernelAddrMask + ps.paBase < p := fun p hp =>
    (obj_bounds h.inv hzero (hobjs p hp)).1
  refine ⟨?_, ?_⟩
  · rw [hptrs, List.nodup_cons, List.nodup_cons, List.mem_cons, not_or]
    exact ⟨⟨hne, fun hmem => absurd (hhigh _ hmem) (Nat.not_lt.2 hlow)⟩,
      fun hmem => absurd (hhigh _ hmem) (Nat.not_lt.2 hlow'), hnodup⟩
  · rw [hptrs, List.mem_cons, List.mem_cons]
    rintro (hz | hz | hz)
    · omega
    · omega
    · exact absurd (hhigh _ hz) (Nat.not_lt_zero _)

theorem create_cases (h : r.create objsize = .ok (some r')) :
    ∃ p heap, slabAllocPool r.heap 0 = .ok (p, heap) ∧ r.nrPools < maxMemPools ∧
      r' = Registry.register { r with heap := { heap with
        nrPools := heap.nrPools + 1
        pools := update heap.pools heap.nrPools (newPool objsize) } } heap.nrPools p := by
  obtain ⟨⟨p, heap⟩, halloc, h⟩ := ok_of_bind h
  dsimp only at h
  split at h
  · cases h
  · rename_i hlt
    cases h
    exact ⟨p, heap, halloc, Nat.lt_of_not_le hlt, rfl⟩

/-- As long as no pool has been taken out, the heap of a registry goes the way of
`slabPoolCreate`. -/
theorem create_refines (hnr : r.nrPools = r.heap.nrPools) (h : r.create objsize = .ok (some r')) :
    slabPoolCreate r.heap objsize = .ok (some r'.heap) := by
  obtain ⟨p, heap, halloc, hlt, rfl⟩ := create_cases h
  rw [slabPoolCreate, halloc]
  refine if_neg (Nat.not_le.2 ?_)
  rwa [(slabAllocPool_taken halloc).nrPools, ← hnr]

theorem Made.create {r : Registry} (h : Made ps root cache r)
    (hr : r.create objsize = .ok (some r')) :
    ∃ ps', ps'.paBase = ps.paBase ∧ Made ps' root cache r' := by
  obtain ⟨p, heap, halloc, -, rfl⟩ := create_cases hr
  have hzero : 0 < r.heap.nrPools := Nat.lt_of_lt_of_le Nat.zero_lt_two h.inv.two
  have htake := slabAllocPool_taken halloc
  have hnr := htake.nrPools
  obtain ⟨ps', hinv, hbase, hobj, hobjs⟩ := h.inv.taken hzero htake
  obtain ⟨hnew, hfresh⟩ := taken_fresh h.inv hzero htake h.fresh
  obtain ⟨objs, hptrs, hnodup, hold⟩ := h.ptrs
  have hpool : update heap.pools heap.nrPools (newPool objsize) 0 = heap.pools 0 :=
    update_of_ne (by omega) _ _
  refine ⟨ps', hbase, ⟨hinv.addPool objsize, ?_, ?_, objs ++ [p], ?_, ?_, ?_⟩⟩
  · exact congrArg (· + 1) (h.nr.trans hnr.symm)
  · exact (congrArg SlabPool.cache hpool).trans hfresh
  · rw [ptrs_register _ _ (obj_bounds hinv (hnr ▸ hzero) hobj).2]
    exact congrArg (· ++ [p]) hptrs
  · refine List.nodup_append.2 ⟨hnodup, List.nodup_singleton p, fun a ha b hb => ?_⟩
    rw [List.mem_singleton.1 hb]
    rintro rfl
    exact hnew (hold a ha)
  · intro a ha
    refine (congrArg (IsObj · a) hpool).mpr ?_
    rcases List.mem_append.1 ha with ha | ha
    · exact hobjs 0 a (hold a ha)
    · rwa [List.mem_singleton.1 ha]

theorem startRegistry_made (hp : Placed ps) (hroot : root < 2 ^ 64) (hcache : cache < 2 ^ 64) :
    Made ps root cache (startRegistry (sections ps) root cache) := by
  refine ⟨start_inv hp, rfl, rfl, [], ?_, List.nodup_nil, List.forall_mem_nil _⟩
  rw [startRegistry, ptrs_register _ _ hcache, ptrs_register _ _ hroot]
  rfl

/-- **Every registry** that `init_slab` and `slab_pool_create` make holds the pointers of different
structures; the static pools lie below the pages of the section. -/
theorem made_valid (hp : Placed ps) (hroot : 0 < root) (hcache : 0 < cache) (hne : root ≠ cache)
    (hlow : root ≤ kernelAddrMask + ps.paBase) (hlow' : cache ≤ kernelAddrMask + ps.paBase)
    {r : Registry}
    (hrun : Steps rstep (fun _ _ => True) (startRegistry (sections ps) root cache) r) :
    Valid r := by
  have htop := hp.top
  have hmask : kernelAddrMask + ps.paBase < 2 ^ 64 := by
    unfold kernelAddrMask
    omega
  have hmade : ∃ ps', ps'.paBase = ps.paBase ∧ Made ps' root cache r := by
    refine hrun.invariant (P := fun r => ∃ ps', ps'.paBase = ps.paBase ∧ Made ps' root cache r)
      ⟨ps, rfl, startRegistry_made hp (by omega) (by omega)⟩ ?_
    rintro r objsize r' ⟨ps', hbase, hmade⟩ - hstep
    obtain ⟨ps'', hbase', hmade'⟩ :=
      hmade.create (ok_of_toOption (Option.join_eq_some_iff.1 hstep))
    exact ⟨ps'', hbase'.trans hbase, hmade'⟩
  obtain ⟨ps', hbase, hmade⟩ := hmade
  exact hmade.valid hroot hcache hne (hbase ▸ hlow) (hbase ▸ hlow')

/-! ## What `slab_pool_free` leaves -/

/-- **`slab_pool_free`** of a pool that is not the root pool and has no freed objects and no slabs
with room: its assertions hold, and what it leaves in the table is the table without the pool
exactly if no pool stands behind it, or one whose pointer differs in the lowest byte only. -/
theorem slab_pool_free_table_iff (r : Registry) (hvalid : Valid r) (i idx : Nat) (hroot : 0 < idx)
    (hidx : idx < r.nrPools) (hptr : r.ptr idx = r.addr i) (hcache : (r.heap.pools i).cache = [])
    (hslabs : (r.heap.pools i).partials = []) :
    ∃ r', unregister r i = .ok r' ∧
      slabPoolFree r i = (do
        let heap ← slabFree r'.heap (r'.addr i)
        .ok { r' with heap := heap }) ∧
      (r'.ptrs = r.ptrs.erase (r.addr i) ↔ Removable r idx) := by
  have hmem : r.addr i ∈ r.ptrs := by
    rw [← hptr]
    exact List.mem_map_of_mem (List.mem_range.2 hidx)
  have hnonnull : r.addr i ≠ 0 := fun hzero => hvalid.nonnull (hzero ▸ hmem)
  have hunreg : unregister r i = .ok (r.removed idx) := by
    rw [unregister, hvalid.find_ptr hidx hptr]
    exact if_pos hroot
  refine ⟨r.removed idx, hunreg, ?_, ?_⟩
  · rw [slabPoolFree, if_neg hnonnull, if_neg (fun h => h.2 hslabs), if_neg (not_not.2 hcache),
      hunreg]
    rfl
  · rw [← hptr, hvalid.erase_ptr hidx]
    exact removed_right_iff hvalid.nodup hidx

/-- Ten pools: `init_slab` and one more, with the static pools in front of the section. -/
def bootRegistry : Option Registry :=
  run rstep (startRegistry (sections PageRuns.smallSection) 0xffff000030000000 0xffff000030000040)
    (generalPools ++ [64])

theorem bootRegistry_valid {r : Registry} (h : bootRegistry = some r) : Valid r :=
  made_valid smallSection_placed (by decide) (by decide) (by decide) (by decide) (by decide)
    (Steps.refl.run (fun _ _ => trivial) h)

/-- The pool before the last one is taken out: one byte is moved, the only one in which the two
pointers differ. -/
theorem slab_pool_free_before_last : ∃ r r', bootRegistry = some r ∧ r.nrPools = 10 ∧
    unregister r 8 = .ok r' ∧ r'.ptrs = r.ptrs.erase (r.addr 8) := by
  have hboot : bootRegistry.map (fun r => (r.nrPools, r.ptr 8 == r.addr 8,
      (r.heap.pools 8).cache, (r.heap.pools 8).partials, r.ptr 8 / 256 == r.ptr 9 / 256)) =
        some (10, true, [], [], true) := by
    decide +kernel
  obtain ⟨r, hr, hboot⟩ := Option.map_eq_some_iff.1 hboot
  simp only [Prod.mk.injEq, beq_iff_eq] at hboot
  obtain ⟨hnr, hptr, hcache, hslabs, hbyte⟩ := hboot
  obtain ⟨r', hunreg, -, hright⟩ := slab_pool_free_table_iff r (bootRegistry_valid hr) 8 8
    (by decide) (by omega) hptr hcache hslabs
  exact ⟨r, r', hr, hnr, hunreg, hright.2 (.inr ⟨hnr.symm, hbyte⟩)⟩

/-- Taking out the pool for 64 bytes leaves the next pool in the table twice and loses the last
one. -/
theorem slab_pool_free_loses_last :
    (bootRegistry.bind fun r => (slabPoolFree r 5).toOption.map fun r' =>
      (r'.nrPools, r'.ptrs.count (r.addr 6), r'.ptrs.count (r.addr 9),
        decide (r'.ptrs = r.ptrs.erase (r.addr 5)))) = some (9, 2, 0, false) := by
  decide +kernel

end SpringOs.SlabRegistry
