import SpringOs.Heap
import SpringOs.Lib.Machine

/-!
Runs of the slab allocator: any sequence of `slab_pool_create`, `slab_alloc_pool` and of
`slab_free` on objects the client holds, from the two static pools on.

The objects `slab_alloc_pool` has returned and that were not freed since are kept beside
the heap, whether a client asked for them, `slab_pool_create` did (for a descriptor) or
`slab_free` (for a cache node).

* `Account`: every object taken from a slab is out or on the cache chain;
* `Account.step`: kept by whatever `slab_alloc_pool` does;
* `sstep_inv`, `initSlab_run`: the runs, and `init_slab` as the start of them;
* **`slab_partition`**: each slot of each slab is in exactly one place.
-/

namespace SpringOs.SlabRuns
open Lib.Machine Lib.Ranges Bitmap Kernel PageAlloc SlabAlloc Heap
open Function (update update_self update_of_ne)
open PageRuns (Placed SecInv init_placed init_secInv_of_fit)

variable {pool : SlabPool} {s : Slab} {i x j : Nat}

/-! ## What is known of a pool -/

/-- The objects of `pool` that are `out`, and those on its chain, are all that were taken. -/
structure Account (pool : SlabPool) (out : List Nat) : Prop where
  all : ∀ x, IsObj pool x → x ∈ pool.cache.map SlabCache.obj ++ out
  full : ∀ s ∈ pool.full, s.nrFree = 0
  behind : ∀ s ∈ pool.slabs, s.page + 64 + 2 * s.nrObj ≤ s.objStart

variable {rest : List Slab} {out : List Nat}

theorem takeObject_full {t : Slab} (h : t ∈ (takeObject pool [] s rest).full) :
    t ∈ pool.full ∨ t = advance s ∧ (advance s).nrFree = 0 := by
  unfold takeObject at h
  simp only at h
  split at h
  case isTrue hz =>
    rcases List.mem_cons.1 h with rfl | h
    · exact Or.inr ⟨rfl, hz⟩
    · exact Or.inl h
  case isFalse => exact Or.inl h

theorem Account.take (h : Account pool out) (hpart : pool.partials = s :: rest) :
    Account (takeObject pool [] s rest) ((s.objStart + pool.size * s.active) :: out) := by
  have hslabs := slabs_eq_cons hpart
  have hs : s ∈ pool.slabs := hslabs ▸ List.mem_cons_self
  have hrest : ∀ t ∈ rest ++ pool.full, t ∈ pool.slabs := fun t ht =>
    hslabs ▸ List.mem_cons_of_mem s ht
  constructor
  · rintro x ⟨t, ht, j, hj, rfl⟩
    rw [takeObject_cache, takeObject_size, List.perm_middle.mem_iff, List.mem_cons]
    rcases takeObject_mem.1 ht with rfl | ht
    · -- the object taken now, or one taken from this slab before
      rcases Nat.lt_succ_iff_lt_or_eq.1 hj with hj | rfl
      · exact Or.inr (h.all _ ⟨s, hs, j, hj, rfl⟩)
      · exact Or.inl rfl
    · exact Or.inr (h.all _ ⟨t, hrest t ht, j, hj, rfl⟩)
  · intro t ht
    rcases takeObject_full ht with ht | ⟨rfl, hz⟩
    · exact h.full t ht
    · exact hz
  · intro t ht
    rcases takeObject_mem.1 ht with rfl | ht
    · exact h.behind s hs
    · exact h.behind t (hrest t ht)

theorem Account.refill (h : Account pool out) (hpart : pool.partials = [])
    (hnew : FreshSlab i pool.size s) : Account { pool with partials := [s] } out := by
  have hslabs : pool.slabs = pool.full := by rw [SlabPool.slabs, hpart, List.nil_append]
  have hmem : ∀ t ∈ SlabPool.slabs { pool with partials := [s] }, t = s ∨ t ∈ pool.slabs := by
    intro t ht
    rw [hslabs]
    exact List.mem_cons.1 ht
  constructor
  · rintro x ⟨t, ht, j, hj, rfl⟩
    rcases hmem t ht with rfl | ht
    · rw [hnew.active] at hj
      exact absurd hj (Nat.not_lt_zero j)
    · exact h.all _ ⟨t, ht, j, hj, rfl⟩
  · exact h.full
  · intro t ht
    rcases hmem t ht with rfl | ht
    · exact hnew.behind
    · exact h.behind t ht

theorem Account.step {pool' : SlabPool} (h : Account pool out) (hstep : PoolStep i pool x pool') :
    Account pool' (x :: out) := by
  cases hstep with
  | @hit c rest hcache =>
    refine ⟨?_, h.full, h.behind⟩
    intro y hy
    have hmem := h.all y hy
    rw [hcache] at hmem
    exact List.perm_middle.mem_iff.2 hmem
  | take _ hpart => exact h.take hpart
  | refill _ hpart hnew => exact (h.refill hpart hnew).take rfl

theorem Account.push (h : Account pool out) (node x : Nat) :
    Account { pool with cache := ⟨node, x⟩ :: pool.cache } (out.erase x) := by
  refine ⟨?_, h.full, h.behind⟩
  intro y hy
  rw [List.map_cons, List.cons_append, List.mem_cons]
  by_cases hyx : y = x
  · exact Or.inl hyx
  · rcases List.mem_append.1 (h.all y hy) with hc | ho
    · exact Or.inr (List.mem_append_left _ hc)
    · exact Or.inr (List.mem_append_right _ ((List.mem_erase_of_ne hyx).2 ho))

/-! ## The system -/

/-- `out i` are the objects of pool `i` returned and not freed; `mine` those among them the
client was given, with their pools. -/
structure SlabSys where
  heap : Kmem
  out : Nat → List Nat
  mine : List (Nat × Nat)

inductive SlabOp
  | create (size : Nat)
  | alloc (i : Nat)
  | free (i x : Nat)
  deriving DecidableEq, Repr

/-- The pools before `init_slab` creates the general ones. -/
def start (secs : List PageSection) : SlabSys :=
  ⟨⟨secs, 2, fun i => if i = 0 then rootPool else cachePool⟩, fun _ => [], []⟩

/-- `slab_pool_create` and `slab_free` call `slab_alloc_pool` themselves. -/
def sstep (s : SlabSys) : SlabOp → Option SlabSys
  | .create size =>
    match slabAllocPool s.heap 0, slabPoolCreate s.heap size with
    | .ok (x, _), .ok (some heap) =>
      some ⟨heap, update s.out 0 (x :: s.out 0), s.mine⟩
    | _, _ => none
  | .alloc i =>
    match slabAllocPool s.heap i with
    | .ok (x, heap) => some ⟨heap, update s.out i (x :: s.out i), (i, x) :: s.mine⟩
    | .error _ => none
  | .free i x =>
    match slabAllocPool s.heap 1, slabFree s.heap x with
    | .ok (node, _), .ok heap =>
      let out := update s.out 1 (node :: s.out 1)
      some ⟨heap, update out i ((out i).erase x), s.mine.erase (i, x)⟩
    | _, _ => none

def sok (s : SlabSys) : SlabOp → Prop
  | .create size => size ∈ generalPools
  | .alloc i => i < s.heap.nrPools
  | .free i x => (i, x) ∈ s.mine

structure SlabInv (ps : PageSection) (blocks : List Extent) (nr : Nat) (pools : Nat → SlabPool)
    (out : Nat → List Nat) (mine : List (Nat × Nat)) : Prop where
  heap : HeapInv ps blocks nr pools out []
  two : 2 ≤ nr
  account : ∀ i < nr, Account (pools i) (out i)
  unused : ∀ i, nr ≤ i → out i = []
  held : ∀ p ∈ mine, p.1 < nr ∧ p.2 ∈ out p.1
  nodup : mine.Nodup

def SInv (s : SlabSys) : Prop :=
  ∃ ps blocks nr pools, s.heap = ⟨sections ps, nr, pools⟩ ∧
    SlabInv ps blocks nr pools s.out s.mine

section
variable {ps : PageSection} {blocks : List Extent} {nr : Nat} {pools : Nat → SlabPool}
  {out : Nat → List Nat} {mine : List (Nat × Nat)}

section

variable (h : SlabInv ps blocks nr pools out mine)
include h

theorem SlabInv.afterAlloc {ps' : PageSection} {blocks' : List Extent} {pool' : SlabPool}
    (hi : i < nr) (hstep : PoolStep i (pools i) x pool')
    (hinv : HeapInv ps' blocks' nr (update pools i pool')
      (update out i (x :: out i)) []) :
    SlabInv ps' blocks' nr (update pools i pool') (update out i (x :: out i))
      mine := by
  refine ⟨hinv, h.two, ?_, ?_, ?_, h.nodup⟩
  · intro j hj
    by_cases hji : j = i
    · subst hji
      rw [update_self, update_self]
      exact (h.account j hj).step hstep
    · rw [update_of_ne hji, update_of_ne hji]
      exact h.account j hj
  · intro j hj
    rw [update_of_ne (by omega)]
    exact h.unused j hj
  · intro p hp
    obtain ⟨hlt, hmem⟩ := h.held p hp
    refine ⟨hlt, ?_⟩
    by_cases hpi : p.1 = i
    · rw [hpi, update_self]
      exact List.mem_cons_of_mem _ (hpi ▸ hmem)
    · rwa [update_of_ne hpi]

theorem SlabInv.give (hi : i < nr) (hx : x ∈ out i) (hnew : (i, x) ∉ mine) :
    SlabInv ps blocks nr pools out ((i, x) :: mine) := by
  refine ⟨h.heap, h.two, h.account, h.unused, ?_, List.nodup_cons.2 ⟨hnew, h.nodup⟩⟩
  intro p hp
  rcases List.mem_cons.1 hp with rfl | hp
  · exact ⟨hi, hx⟩
  · exact h.held p hp

theorem SlabInv.push {node : Nat} (hx : (i, x) ∈ mine) :
    SlabInv ps blocks nr (pushCache ⟨sections ps, nr, pools⟩ i node x).pools
      (update out i ((out i).erase x)) (mine.erase (i, x)) := by
  obtain ⟨hi, hxo⟩ := h.held _ hx
  refine ⟨h.heap.push hi hxo node, h.two, ?_, ?_, ?_, h.nodup.erase _⟩
  · intro j hj
    by_cases hji : j = i
    · subst hji
      simp only [pushCache, update_self]
      exact (h.account j hj).push node x
    · simp only [pushCache, update_of_ne hji]
      exact h.account j hj
  · intro j hj
    rw [update_of_ne (by omega)]
    exact h.unused j hj
  · intro p hp
    rw [h.nodup.mem_erase_iff] at hp
    obtain ⟨hlt, hmem⟩ := h.held p hp.2
    refine ⟨hlt, ?_⟩
    by_cases hpi : p.1 = i
    · rw [hpi, update_self]
      have hne : p.2 ≠ x := fun he => hp.1 (Prod.ext hpi he)
      exact (List.mem_erase_of_ne hne).2 (hpi ▸ hmem)
    · rwa [update_of_ne hpi]

theorem SlabInv.addPool {size : Nat} (hsize : PoolSize size) :
    SlabInv ps blocks (nr + 1) (update pools nr (newPool size)) out mine := by
  refine ⟨h.heap.addPool hsize (h.unused nr (le_refl nr)), by have := h.two; omega, ?_, ?_, ?_,
    h.nodup⟩
  · intro i hi
    by_cases hinr : i = nr
    · subst hinr
      rw [update_self]
      refine ⟨?_, ?_, ?_⟩
      · rintro x ⟨s, hs, _⟩
        cases hs
      · intro s hs
        cases hs
      · intro s hs
        cases hs
    · rw [update_of_ne hinr]
      exact h.account i (by omega)
  · intro i hi
    exact h.unused i (by omega)
  · intro p hp
    obtain ⟨hlt, hmem⟩ := h.held p hp
    exact ⟨by omega, hmem⟩

end

end

/-! ## Runs -/

variable {ps : PageSection} {out : Nat → List Nat} {mine : List (Nat × Nat)} {heap : Kmem}

theorem start_inv (hp : Placed ps) (hsec : SecInv ps []) : SInv (start (sections ps)) := by
  refine ⟨ps, [], 2, _, rfl, heapInv_start hp hsec, le_refl 2, ?_, fun _ _ => rfl, ?_,
    List.nodup_nil⟩
  · intro i _
    have hslabs : (if i = 0 then rootPool else cachePool).slabs = [] := by
      split <;> rfl
    have hfull : (if i = 0 then rootPool else cachePool).full = [] := by
      split <;> rfl
    constructor
    · rintro x ⟨s, hs, _⟩
      rw [hslabs] at hs
      cases hs
    · rw [hfull]
      intro s hs
      cases hs
    · rw [hslabs]
      intro s hs
      cases hs
  · intro p hp
    cases hp

/-- What a step does: one or two allocations, each a `PoolStep` of its pool, then a pool is
added, the object given to the client, or the client's object put on a chain. -/
theorem sstep_cases {blocks : List Extent} {nr : Nat} {pools : Nat → SlabPool} {op : SlabOp}
    {s' : SlabSys} (hinv : SlabInv ps blocks nr pools out mine)
    (hop : sok ⟨⟨sections ps, nr, pools⟩, out, mine⟩ op)
    (h : sstep ⟨⟨sections ps, nr, pools⟩, out, mine⟩ op = some s') :
    ∃ ps' blocks' i x pool', i < nr ∧ PoolStep i (pools i) x pool' ∧
      HeapInv ps' blocks' nr (update pools i pool')
        (update out i (x :: out i)) [] ∧
      ((∃ size, i = 0 ∧ op = .create size ∧
          s' = ⟨⟨sections ps', nr + 1,
            update (update pools i pool') nr (newPool size)⟩,
            update out i (x :: out i), mine⟩) ∨
        (op = .alloc i ∧ s' = ⟨⟨sections ps', nr, update pools i pool'⟩,
          update out i (x :: out i), (i, x) :: mine⟩) ∨
        ∃ j y, i = 1 ∧ op = .free j y ∧
          s' = ⟨pushCache ⟨sections ps', nr, update pools i pool'⟩ j x y,
            update (update out i (x :: out i)) j
              ((update out i (x :: out i) j).erase y), mine.erase (j, y)⟩) := by
  have h1 : 1 < nr := hinv.two
  cases op with
  | create size =>
    have h0 : 0 < nr := Nat.lt_trans Nat.zero_lt_one h1
    simp only [sstep, slabPoolCreate] at h
    rcases slabAllocPool_step hinv.heap h0 with
      ⟨he, _⟩ | ⟨x, ps', blocks', pool', he, hstep, hheap, _⟩
    · rw [he] at h
      cases h
    · rw [he] at h
      simp only [bind, Except.bind] at h
      by_cases hmax : maxMemPools ≤ nr
      · simp only [hmax, if_true] at h
        cases h
      · simp only [hmax, if_false] at h
        cases h
        exact ⟨ps', blocks', 0, x, pool', h0, hstep, hheap, .inl ⟨size, rfl, rfl, rfl⟩⟩
  | alloc i =>
    simp only [sstep] at h
    rcases slabAllocPool_step hinv.heap hop with
      ⟨he, _⟩ | ⟨x, ps', blocks', pool', he, hstep, hheap, _⟩
    · rw [he] at h
      cases h
    · rw [he] at h
      cases h
      exact ⟨ps', blocks', i, x, pool', hop, hstep, hheap, .inr (.inl ⟨rfl, rfl⟩)⟩
  | free j y =>
    obtain ⟨hj, hy⟩ := hinv.held _ hop
    simp only [sstep] at h
    rcases slabFree_step hinv.heap hj h1 hy with
      ⟨he, _⟩ | ⟨node, ps', blocks', pool', halloc, hstep, hheap, _, he⟩
    · rw [he] at h
      split at h
      case h_1 heq => cases heq
      case h_2 => cases h
    · rw [halloc, he] at h
      cases h
      exact ⟨ps', blocks', 1, node, pool', h1, hstep, hheap, .inr (.inr ⟨j, y, rfl, rfl, rfl⟩)⟩

theorem sstep_inv (s : SlabSys) (op : SlabOp) (s' : SlabSys) (hs : SInv s) (hop : sok s op)
    (h : sstep s op = some s') : SInv s' := by
  obtain ⟨heap, out, mine⟩ := s
  obtain ⟨ps, blocks, nr, pools, rfl, hinv⟩ := hs
  obtain ⟨ps', blocks', i, x, pool', hi, hstep, hheap, hcase⟩ := sstep_cases hinv hop h
  have hafter := hinv.afterAlloc hi hstep hheap
  rcases hcase with ⟨size, _, rfl, rfl⟩ | ⟨rfl, rfl⟩ | ⟨j, y, _, rfl, rfl⟩
  · exact ⟨ps', blocks', nr + 1, _, rfl, hafter.addPool (generalPools_size hop)⟩
  · refine ⟨ps', blocks', nr, _, rfl, hafter.give hi ?_ ?_⟩
    · rw [update_self]
      exact List.mem_cons_self
    · -- the object was not out, so the client did not hold it
      intro hmine
      have hd := (List.nodup_append.1 (hheap.distinct i hi)).2.1
      rw [update_self, List.nodup_cons] at hd
      exact hd.1 (hinv.held _ hmine).2
  · exact ⟨ps', blocks', nr, _, rfl, hafter.push hop⟩

theorem createPools_run {s0 : SlabSys} {sizes : List Nat} (hsizes : ∀ z ∈ sizes, z ∈ generalPools)
    {k : Kmem} (hrun : Steps sstep sok s0 ⟨k, out, mine⟩)
    (hk : createPools sizes k = .ok (some heap)) :
    ∃ out', Steps sstep sok s0 ⟨heap, out', mine⟩ := by
  induction sizes generalizing k out with
  | nil =>
    cases hk
    exact ⟨out, hrun⟩
  | cons size rest ih =>
    obtain ⟨r, hr, hrest⟩ := ok_of_bind hk
    cases r with
    | none => cases hrest
    | some k' =>
      obtain ⟨⟨x, k1⟩, halloc, _⟩ := ok_of_bind hr
      have hstep : sstep ⟨k, out, mine⟩ (.create size) =
          some ⟨k', update out 0 (x :: out 0), mine⟩ := by
        simp only [sstep, halloc, hr]
      exact ih (fun z hz => hsizes z (List.mem_cons_of_mem _ hz))
        (hrun.tail (.create size) (hsizes size List.mem_cons_self) hstep) hrest

/-- **`init_slab`** is the start of a run. -/
theorem initSlab_run {secs : List PageSection} (h : initSlab secs = .ok (some heap)) :
    ∃ out, Steps sstep sok (start secs) ⟨heap, out, []⟩ :=
  createPools_run (fun _ hz => hz) .refl h

/-! ## The partition -/

/-- Slot `j` of the slab has not been touched: its index is in `freelist[active..nr_obj)`. -/
def Untouched (s : Slab) (j : Nat) : Prop :=
  ∃ a, s.active ≤ a ∧ a < s.nrObj ∧ s.freelist[a]? = some (j : Int)

theorem untouched_iff {size : Nat} (h : SlabOk i size s) (hj : j < s.nrObj) :
    Untouched s j ↔ s.active ≤ j := by
  have hget : ∀ a < s.nrObj, s.freelist[a]? = some (a : Int) := by
    intro a ha
    simp [h.freelist, ha]
  constructor
  · rintro ⟨a, ha, halt, he⟩
    rw [hget a halt] at he
    have := Option.some.inj he
    omega
  · intro ha
    exact ⟨j, ha, hj, hget j hj⟩

def OneOf (p q r : Prop) : Prop := (p ∧ ¬ q ∧ ¬ r) ∨ (¬ p ∧ q ∧ ¬ r) ∨ (¬ p ∧ ¬ q ∧ r)

section
variable {ps : PageSection} {blocks : List Extent} {nr : Nat} {pools : Nat → SlabPool}
  {out : Nat → List Nat} {mine : List (Nat × Nat)}

section

variable (h : SlabInv ps blocks nr pools out mine) (hi : i < nr)
include h hi

theorem SlabInv.slot (hs : s ∈ (pools i).slabs) (hj : j < s.nrObj) :
    OneOf (s.objStart + (pools i).size * j ∈ out i)
      (s.objStart + (pools i).size * j ∈ (pools i).cache.map SlabCache.obj) (Untouched s j) := by
  have hpool := h.heap.poolOk i hi
  have hd := h.heap.distinct i hi
  rw [untouched_iff (hpool.slabs s hs) hj]
  by_cases ha : s.active ≤ j
  · -- an untouched slot is no object taken
    have hnot : s.objStart + (pools i).size * j ∉ (pools i).cache.map SlabCache.obj ++ out i := by
      intro hmem
      obtain ⟨t, ht, l, hl, he⟩ := h.heap.objs i hi _ hmem
      have hle := (hpool.slabs t ht).active_le
      obtain ⟨rfl, rfl⟩ := hpool.obj_inj hs ht hj (Nat.lt_of_lt_of_le hl hle) he
      omega
    rw [List.mem_append, not_or] at hnot
    exact Or.inr (Or.inr ⟨hnot.2, hnot.1, ha⟩)
  · have hmem := (h.account i hi).all _ ⟨s, hs, j, by omega, rfl⟩
    have hdis := (List.nodup_append.1 hd).2.2
    rcases List.mem_append.1 hmem with hc | ho
    · exact Or.inr (Or.inl ⟨fun ho => hdis _ hc _ ho rfl, hc, ha⟩)
    · exact Or.inl ⟨ho, fun hc => hdis _ hc _ ho rfl, ha⟩

theorem SlabInv.lists (hs : s ∈ (pools i).slabs) :
    (s ∈ (pools i).full ↔ s.nrFree = 0) ∧ (s ∈ (pools i).partials ↔ s.nrFree ≠ 0) := by
  have hfull := (h.account i hi).full s
  have hpart := (h.heap.poolOk i hi).room s
  rcases List.mem_append.1 hs with hp | hf
  · have hpos := hpart hp
    exact ⟨iff_of_false (fun hf => by have := hfull hf; omega) (by omega),
      iff_of_true hp (by omega)⟩
  · have hz := hfull hf
    exact ⟨iff_of_true hf hz, iff_of_false (fun hp => by have := hpart hp; omega) (by omega)⟩

theorem SlabInv.place (hx : x ∈ out i) :
    ∃ s ∈ (pools i).slabs, s.page + 64 + 2 * s.nrObj ≤ s.objStart ∧ s.objStart ≤ x ∧
      x + (pools i).objSize ≤ s.page + 4096 ∧ x % (pools i).objSize = 0 := by
  have hpool := h.heap.poolOk i hi
  obtain ⟨s, hs, j, hj, rfl⟩ := h.heap.objs i hi x (List.mem_append_right _ hx)
  have hok := hpool.slabs s hs
  have hend := (hok.obj_bounds (Nat.lt_of_lt_of_le hj hok.active_le)).2
  rw [hpool.objSize]
  refine ⟨s, hs, (h.account i hi).behind s hs, Nat.le_add_right _ _, hend, ?_⟩
  rw [Nat.add_mul_mod_self_left]
  exact hok.objAligned

theorem SlabInv.apart (hj : j < nr) {y : Nat} (hx : x ∈ out i) (hy : y ∈ out j)
    (hne : (i, x) ≠ (j, y)) : Extent.Apart ⟨x, (pools i).objSize⟩ ⟨y, (pools j).objSize⟩ := by
  have hxo := h.heap.objs i hi x (List.mem_append_right _ hx)
  have hyo := h.heap.objs j hj y (List.mem_append_right _ hy)
  have hpi := h.heap.poolOk i hi
  have hpj := h.heap.poolOk j hj
  rw [hpi.objSize, hpj.objSize]
  by_cases hij : i = j
  · subst hij
    exact hpi.obj_apart hxo hyo fun he => hne (by rw [he])
  · -- slabs of different pools are on different pages
    obtain ⟨s, hs, a, ha, rfl⟩ := hxo
    obtain ⟨t, ht, b, hb, rfl⟩ := hyo
    have hpage := h.heap.apart i hi j hj hij s hs t ht
    have hsok := hpi.slabs s hs
    have htok := hpj.slabs t ht
    obtain ⟨h1, h2⟩ := hsok.obj_bounds (Nat.lt_of_lt_of_le ha hsok.active_le)
    obtain ⟨h3, h4⟩ := htok.obj_bounds (Nat.lt_of_lt_of_le hb htok.active_le)
    have hal := hsok.aligned
    have hal' := htok.aligned
    simp only [Extent.Apart]
    omega

end

end

/-- **The slab allocator partitions its slots.** After any run, for every pool: the objects
out and those on the cache chain are all different, each slot of each slab is out, on the
chain or untouched and only one of these, `active + nr_free = nr_obj`, and the slab is on the
list for its `nr_free`. An object out lies in the page of its slab, behind the free list,
aligned to its size, and overlaps no other; the client's objects are out. -/
theorem slab_partition (words : BitmapT) (descs : Nat → Page) (base pages : Nat)
    (hbase : base % 4096 = 0) (hpages : 0 < pages) (hmanaged : managedPages pages < 524288)
    (htop : base + 4096 * pages + 262144 ≤ 2 ^ 48) (hdescs : ∀ i < pages, descs i = ⟨0, 0⟩)
    (hfit : DescsFit pages) {secs : List PageSection}
    (hinit : pageInit words descs base pages = .ok secs) {s : SlabSys}
    (hrun : Steps sstep sok (start secs) s) :
    (∀ p ∈ s.mine, p.1 < s.heap.nrPools ∧ p.2 ∈ s.out p.1) ∧
    ∀ i < s.heap.nrPools,
      ((s.heap.pools i).cache.map SlabCache.obj ++ s.out i).Nodup ∧
      (∀ slab ∈ (s.heap.pools i).slabs,
        slab.active + slab.nrFree = slab.nrObj ∧
        (slab ∈ (s.heap.pools i).full ↔ slab.nrFree = 0) ∧
        (slab ∈ (s.heap.pools i).partials ↔ slab.nrFree ≠ 0) ∧
        ∀ j < slab.nrObj,
          OneOf (slab.objStart + (s.heap.pools i).size * j ∈ s.out i)
            (slab.objStart + (s.heap.pools i).size * j ∈
              (s.heap.pools i).cache.map SlabCache.obj)
            (Untouched slab j)) ∧
      (∀ x ∈ s.out i, ∃ slab ∈ (s.heap.pools i).slabs,
        slab.page + 64 + 2 * slab.nrObj ≤ slab.objStart ∧ slab.objStart ≤ x ∧
        x + (s.heap.pools i).objSize ≤ slab.page + 4096 ∧ x % (s.heap.pools i).objSize = 0) ∧
      ∀ j < s.heap.nrPools, ∀ x ∈ s.out i, ∀ y ∈ s.out j, (i, x) ≠ (j, y) →
        Extent.Apart ⟨x, (s.heap.pools i).objSize⟩ ⟨y, (s.heap.pools j).objSize⟩ := by
  obtain rfl := PageRuns.init_eq hbase hpages hmanaged htop hinit
  have hstart := start_inv (init_placed words descs hbase hpages hmanaged htop)
    (init_secInv_of_fit words base hmanaged hdescs hfit)
  obtain ⟨heap, out, mine⟩ := s
  obtain ⟨ps, blocks, nr, pools, rfl, h⟩ := hrun.invariant hstart sstep_inv
  refine ⟨h.held, ?_⟩
  intro i hi
  refine ⟨h.heap.distinct i hi, ?_, ?_, ?_⟩
  · intro slab hs
    obtain ⟨hfull, hpart⟩ := h.lists hi hs
    exact ⟨((h.heap.poolOk i hi).slabs slab hs).taken, hfull, hpart, fun j hj => h.slot hi hs hj⟩
  · intro x hx
    exact h.place hi hx
  · intro j hj x hx y hy hne
    exact h.apart hi hj hx hy hne

/-- A pool of 8-byte objects is created and one object taken from it. -/
theorem slab_partition_first_object :
    ∃ s, Steps sstep sok (start (sections PageRuns.smallSection)) s ∧
      s.mine = [(2, 0xffff000040002368)] ∧ 0xffff000040002368 ∈ s.out 2 := by
  have hcreate : (sstep (start (sections PageRuns.smallSection)) (.create 8)).map
      (fun s => s.heap.nrPools) = some 3 := by
    decide +kernel
  have halloc : ((sstep (start (sections PageRuns.smallSection)) (.create 8)).bind
      (fun s => sstep s (.alloc 2))).map SlabSys.mine = some [(2, 0xffff000040002368)] := by
    decide +kernel
  obtain ⟨s1, hs1, hnr⟩ := Option.map_eq_some_iff.1 hcreate
  rw [hs1, Option.bind_some] at halloc
  obtain ⟨s2, hs2, hmine⟩ := Option.map_eq_some_iff.1 halloc
  have hrun : Steps sstep sok (start (sections PageRuns.smallSection)) s2 :=
    (Steps.refl.tail (.create 8) (show 8 ∈ generalPools by decide) hs1).tail (.alloc 2)
      (show 2 < s1.heap.nrPools by omega) hs2
  have hheld := (slab_partition (fun _ => 0#64) PageRuns.zeroDescs 0x40000000 64 (by decide)
    (by decide) (by decide) (by decide) (fun _ _ => rfl) (by decide) PageRuns.pageInit_small
    hrun).1 (2, 0xffff000040002368) (by simp [hmine])
  exact ⟨s2, hrun, hmine, hheld.2⟩

end SpringOs.SlabRuns
