import Mathlib.Algebra.BigOperators.Group.Finset.Piecewise
import SpringOs.SlabRuns

/-!
What a cycle of `slab_alloc_pool` and `slab_free` costs. `slab_free` takes a node from the
cache pool for the object it puts on a chain; `slab_alloc_pool` hands the object out again
and drops the node.

* `Packed`: the slabs of the cache pool are filled one after the other, 224 nodes each;
* `poolStep_taken`: an allocation takes a new slot unless the chain of the pool has one;
* `slabCycle_run`: a cycle is two steps of a run;
* **`slab_cycles_pages_iff`**: the pages held after `n` cycles.
-/

namespace SpringOs.SlabLeak
open Lib.Word Lib.Machine Lib.Ranges Bitmap Kernel PageAlloc SlabAlloc Heap SlabRuns
open Function (update update_self update_of_ne)
open PageRuns (init_placed init_secInv_of_fit)

variable {i x : Nat} {pool pool' : SlabPool} {k : Kmem} {s : SlabSys}

/-! ## Cycles -/

/-- One object is allocated from pool `i` and given back. -/
def slabCycle (i : Nat) (k : Kmem) : Except Fault Kmem := do
  let (x, k) ← slabAllocPool k i
  slabFree k x

def slabCycles (i : Nat) : Nat → Kmem → Except Fault Kmem
  | 0, k => .ok k
  | n + 1, k => do
    let k ← slabCycle i k
    slabCycles i n k

def pagesHeld (k : Kmem) : Nat := ∑ i ∈ Finset.range k.nrPools, (k.pools i).slabs.length

def taken (pool : SlabPool) : Nat := (pool.slabs.map Slab.active).sum

def spare (pool : SlabPool) : Nat := (pool.slabs.map Slab.nrFree).sum

/-- The page that the first object of a pool without slots needs; the cache pool's own pages
are counted apart. -/
def firstPage (k : Kmem) (i : Nat) : Nat :=
  if i ≠ 1 ∧ (k.pools i).cache = [] ∧ (k.pools i).partials = [] then 1 else 0

/-! ## The cache pool -/

theorem freshSlab_count {s : Slab} (h : FreshSlab i 16 s) : s.nrObj = 224 := by
  have hal := h.ok.aligned
  have htop := h.ok.top
  have hfirst := h.behind
  have hlast := h.ok.last
  have hpos := h.pos
  rcases h.most with hmost | hmost
  · -- 252 objects do not fit behind a free list of 252 entries
    rw [hmost] at hfirst hlast
    omega
  · have hup := alignUp_pow (a := s.page + 64 + 2 * (s.nrObj + 1)) (k := 4) (by omega)
    simp only [Nat.reducePow] at hup
    rw [hup] at hmost
    have hmod := h.ok.objAligned
    omega

/-- The slabs of the cache pool: all of them begun, all but one full. -/
structure Packed (pool : SlabPool) : Prop where
  size : pool.size = 16
  one : pool.partials.length ≤ 1
  begun : ∀ s ∈ pool.slabs, 0 < s.active
  count : ∀ s ∈ pool.slabs, s.nrObj = 224

theorem takeObject_partials_length (pool : SlabPool) (s : Slab) (rest : List Slab) :
    (takeObject pool [] s rest).partials.length ≤ rest.length + 1 := by
  unfold takeObject
  simp only [List.nil_append]
  split
  · exact Nat.le_succ _
  · exact le_refl _

theorem Packed.step (h : Packed pool) (hstep : PoolStep 1 pool x pool') : Packed pool' := by
  refine ⟨hstep.size_eq.trans h.size, ?_, ?_, ?_⟩
  · cases hstep with
    | hit _ => exact h.one
    | @take s rest _ hpart =>
      have hone := h.one
      rw [hpart] at hone
      exact (takeObject_partials_length pool s rest).trans hone
    | @refill s _ _ _ => exact takeObject_partials_length _ s []
  · apply hstep.forall_slabs h.begun
    · intro s _
      exact Nat.succ_pos _
    · intro s _
      exact Nat.succ_pos _
  · apply hstep.forall_slabs h.count
    · intro s hs
      exact hs
    · intro s hs
      rw [h.size] at hs
      show s.nrObj = 224
      exact freshSlab_count hs

theorem sum_active_nrFree {l : List Slab} (h : ∀ s ∈ l, s.active + s.nrFree = 224) :
    (l.map Slab.active).sum + (l.map Slab.nrFree).sum = 224 * l.length := by
  induction l with
  | nil => rfl
  | cons s l ih =>
    have hs := h s List.mem_cons_self
    have hl := ih fun t ht => h t (List.mem_cons_of_mem s ht)
    simp only [List.map_cons, List.sum_cons, List.length_cons]
    omega

/-- Every slot is taken or spare, and less than a page of slots is spare. -/
theorem Packed.pages {out : List Nat} (h : Packed pool) (hok : PoolOk i pool)
    (hacc : Account pool out) :
    taken pool + spare pool = 224 * pool.slabs.length ∧ spare pool < 224 := by
  have hsum : ∀ s ∈ pool.slabs, s.active + s.nrFree = 224 := fun s hs => by
    rw [(hok.slabs s hs).taken, h.count s hs]
  refine ⟨sum_active_nrFree hsum, ?_⟩
  have hfull : (pool.full.map Slab.nrFree).sum = 0 := by
    rw [List.sum_eq_zero]
    intro m hm
    obtain ⟨s, hs, rfl⟩ := List.mem_map.1 hm
    exact hacc.full s hs
  rw [spare, SlabPool.slabs, List.map_append, List.sum_append, hfull, Nat.add_zero]
  have hone := h.one
  cases hpart : pool.partials with
  | nil => decide
  | cons s rest =>
    rw [hpart, List.length_cons] at hone
    obtain rfl : rest = [] := List.length_eq_zero_iff.1 (by omega)
    have hs : s ∈ pool.slabs := by simp [SlabPool.slabs, hpart]
    have hb := h.begun s hs
    have := hsum s hs
    simp only [List.map_cons, List.map_nil, List.sum_cons, List.sum_nil]
    omega

/-! ## What an allocation costs -/

theorem poolStep_taken (h : PoolStep i pool x pool') :
    taken pool' = taken pool + (1 - pool.cache.length) := by
  cases h with
  | hit hcache =>
    rw [hcache, List.length_cons, Nat.sub_eq_zero_of_le (Nat.le_add_left 1 _), Nat.add_zero]
    rfl
  | @take s rest hcache hpart =>
    have hp := ((takeObject_slabs pool s rest).map Slab.active).sum_eq
    rw [hcache, taken, taken, hp, slabs_eq_cons hpart]
    simp only [List.map_cons, List.sum_cons, advance, List.length_nil]
    omega
  | @refill s hcache hpart hnew =>
    have hp := ((takeObject_slabs { pool with partials := [s] } s []).map Slab.active).sum_eq
    have hlen : pool.cache.length = 0 := by rw [hcache, List.length_nil]
    rw [taken, hp, hlen, taken, SlabPool.slabs, hpart]
    simp only [List.map_cons, List.sum_cons, advance, hnew.active, List.nil_append]
    omega

theorem poolStep_cache (h : PoolStep i pool x pool') :
    pool'.cache.length = pool.cache.length - 1 := by
  cases h with
  | hit hcache => rw [hcache, List.length_cons, Nat.add_sub_cancel]
  | take hcache _ =>
    rw [takeObject_cache, hcache]
    rfl
  | refill hcache _ _ =>
    rw [takeObject_cache, hcache]
    rfl

theorem poolStep_slabs (h : PoolStep i pool x pool') :
    pool'.slabs.length =
      pool.slabs.length + if pool.cache = [] ∧ pool.partials = [] then 1 else 0 := by
  cases h with
  | hit hcache => simp [hcache, SlabPool.slabs]
  | @take s rest hcache hpart =>
    rw [(takeObject_slabs pool s rest).length_eq, slabs_eq_cons hpart]
    simp [hpart]
  | @refill s hcache hpart _ =>
    rw [(takeObject_slabs _ s []).length_eq]
    simp [hcache, hpart, SlabPool.slabs]

/-! ## What a cycle costs -/

def LeakInv (s : SlabSys) : Prop := SInv s ∧ Packed (s.heap.pools 1)

theorem start_leakInv {ps : PageSection} (hp : PageRuns.Placed ps) (hsec : PageRuns.SecInv ps []) :
    LeakInv (start (sections ps)) := by
  refine ⟨start_inv hp hsec, rfl, Nat.zero_le 1, ?_, ?_⟩
  · intro s hs
    cases hs
  · intro s hs
    cases hs

theorem pushCache_packed {j node : Nat} (h : Packed (k.pools 1)) :
    Packed ((pushCache k j node x).pools 1) := by
  by_cases hj : 1 = j
  · subst hj
    simp only [pushCache, update_self]
    exact ⟨h.size, h.one, h.begun, h.count⟩
  · simp only [pushCache, update_of_ne hj]
    exact h

theorem sstep_leakInv (s : SlabSys) (op : SlabOp) (s' : SlabSys) (hs : LeakInv s) (hop : sok s op)
    (h : sstep s op = some s') : LeakInv s' := by
  refine ⟨sstep_inv s op s' hs.1 hop h, ?_⟩
  obtain ⟨heap, out, mine⟩ := s
  obtain ⟨⟨ps, blocks, nr, pools, rfl, hinv⟩, hpacked⟩ := hs
  obtain ⟨ps', blocks', i, x, pool', hi, hstep, hheap, hcase⟩ := sstep_cases hinv hop h
  have hafter : Packed (update pools i pool' 1) := by
    by_cases hi1 : 1 = i
    · subst hi1
      rw [update_self]
      exact hpacked.step hstep
    · rw [update_of_ne hi1]
      exact hpacked
  rcases hcase with ⟨size, _, _, rfl⟩ | ⟨_, rfl⟩ | ⟨j, y, _, _, rfl⟩
  · have hne : 1 ≠ nr := by
      have := hinv.two
      omega
    show Packed (update (update pools i pool') nr (newPool size) 1)
    rw [update_of_ne hne]
    exact hafter
  · exact hafter
  · exact pushCache_packed (k := ⟨sections ps', nr, update pools i pool'⟩) hafter

theorem slabCycle_cases (hs : LeakInv s) (hi : i < s.heap.nrPools)
    (hk : slabCycle i s.heap = .ok k) :
    ∃ x node pool₁ pool₂ s', PoolStep i (s.heap.pools i) x pool₁ ∧
      PoolStep 1 (update s.heap.pools i pool₁ 1) node pool₂ ∧
      k.pools = update (update (update s.heap.pools i pool₁) 1 pool₂) i
        { update (update s.heap.pools i pool₁) 1 pool₂ i with
          cache := ⟨node, x⟩ ::
            (update (update s.heap.pools i pool₁) 1 pool₂ i).cache } ∧
      k.nrPools = s.heap.nrPools ∧ s'.heap = k ∧ LeakInv s' := by
  obtain ⟨⟨x, k₁⟩, halloc, hfree⟩ := ok_of_bind hk
  have hstep₁ : sstep s (.alloc i) =
      some ⟨k₁, update s.out i (x :: s.out i), (i, x) :: s.mine⟩ := by
    simp only [sstep, halloc]
  have hs₁ := sstep_leakInv s (.alloc i) _ hs hi hstep₁
  obtain ⟨heap, out, mine⟩ := s
  obtain ⟨⟨ps, blocks, nr, pools, rfl, hinv⟩, _⟩ := hs
  rcases slabAllocPool_step hinv.heap hi with
    ⟨he, _⟩ | ⟨x', ps₁, blocks₁, pool₁, he, hpool₁, hheap₁, _⟩
  · cases he.symm.trans halloc
  cases he.symm.trans halloc
  have hx : x ∈ update out i (x :: out i) i := by
    rw [update_self]
    exact List.mem_cons_self
  rcases slabFree_step hheap₁ hi hinv.two hx with
    ⟨he, _⟩ | ⟨node, ps₂, blocks₂, pool₂, hnode, hpool₂, _, _, he⟩
  · cases he.symm.trans hfree
  cases he.symm.trans hfree
  have hstep₂ := sstep_leakInv _ (.free i x) _ hs₁ List.mem_cons_self (by
    simp only [sstep, hnode, he]
    rfl)
  exact ⟨x, node, pool₁, pool₂, _, hpool₁, hpool₂, rfl, rfl, rfl, hstep₂⟩

/-- What one cycle does to the cache pool, and to the number of slabs of the others. -/
theorem slabCycle_effect (hs : LeakInv s) (hi : i < s.heap.nrPools)
    (hk : slabCycle i s.heap = .ok k) :
    (∃ s', s'.heap = k ∧ LeakInv s') ∧ k.nrPools = s.heap.nrPools ∧ (k.pools i).cache ≠ [] ∧
    (∀ j ≠ 1, (k.pools j).slabs.length =
      (s.heap.pools j).slabs.length + if j = i then firstPage s.heap i else 0) ∧
    (i ≠ 1 → taken (k.pools 1) = taken (s.heap.pools 1) + (1 - (s.heap.pools 1).cache.length) ∧
      (k.pools 1).cache.length = (s.heap.pools 1).cache.length - 1) ∧
    (i = 1 → taken (k.pools 1) = taken (s.heap.pools 1) + (1 - (s.heap.pools 1).cache.length) +
        (1 - ((s.heap.pools 1).cache.length - 1)) ∧
      (k.pools 1).cache.length = (s.heap.pools 1).cache.length - 2 + 1) := by
  obtain ⟨x, node, pool₁, pool₂, s', hpool₁, hpool₂, hpools, hnr, hs', hinv'⟩ :=
    slabCycle_cases hs hi hk
  refine ⟨⟨s', hs', hinv'⟩, hnr, ?_, ?_, ?_, ?_⟩
  · rw [hpools, update_self]
    exact List.cons_ne_nil _ _
  · intro j hj
    rw [hpools]
    by_cases hji : j = i
    · subst hji
      rw [update_self, update_of_ne hj, update_self, if_pos rfl]
      have hlen := poolStep_slabs hpool₁
      simp only [firstPage, hj, ne_eq, not_false_eq_true, true_and]
      exact hlen
    · rw [update_of_ne hji, update_of_ne hj, update_of_ne hji,
        if_neg hji, Nat.add_zero]
  · intro hi1
    rw [update_of_ne (Ne.symm hi1)] at hpool₂
    rw [hpools, update_of_ne (Ne.symm hi1), update_self]
    exact ⟨poolStep_taken hpool₂, poolStep_cache hpool₂⟩
  · rintro rfl
    rw [update_self] at hpool₂
    rw [hpools, update_self, update_self]
    have ht₁ := poolStep_taken hpool₁
    have ht₂ := poolStep_taken hpool₂
    have hc₁ := poolStep_cache hpool₁
    have hc₂ := poolStep_cache hpool₂
    rw [hc₁] at ht₂ hc₂
    constructor
    · show taken pool₂ = _
      omega
    · rw [List.length_cons, hc₂]
      omega

/-- The slots of the cache pool that `n` cycles of pool `i` take, `c` objects waiting on the
cache pool's own chain. -/
def newNodes (i c n : Nat) : Nat := if n = 0 then 0 else n + (if i = 1 then 1 else 0) - c

theorem slabCycles_effect {n : Nat} (hs : LeakInv s) (hi : i < s.heap.nrPools)
    (hk : slabCycles i n s.heap = .ok k) :
    (∃ s', s'.heap = k ∧ LeakInv s') ∧ k.nrPools = s.heap.nrPools ∧
    (∀ j ≠ 1, (k.pools j).slabs.length =
      (s.heap.pools j).slabs.length + if j = i ∧ n ≠ 0 then firstPage s.heap i else 0) ∧
    taken (k.pools 1) =
      taken (s.heap.pools 1) + newNodes i (s.heap.pools 1).cache.length n := by
  induction n generalizing s with
  | zero =>
    cases hk
    exact ⟨⟨s, rfl, hs⟩, rfl, fun j _ => by simp, rfl⟩
  | succ n ih =>
    obtain ⟨k₁, hk₁, hrest⟩ := ok_of_bind hk
    obtain ⟨⟨s₁, rfl, hs₁⟩, hnr, hcache, hslabs, hother, hsame⟩ := slabCycle_effect hs hi hk₁
    obtain ⟨hs', hnr', hslabs', htaken⟩ := ih hs₁ (hnr ▸ hi) hrest
    refine ⟨hs', hnr'.trans hnr, ?_, ?_⟩
    · -- after the first cycle the pool has an object on its chain
      have hfirst : firstPage s₁.heap i = 0 := by simp [firstPage, hcache]
      intro j hj
      rw [hslabs' j hj, hslabs j hj, hfirst]
      simp
    · rw [htaken]
      unfold newNodes
      by_cases hi1 : i = 1
      · obtain ⟨ht, hc⟩ := hsame hi1
        rw [ht, hc]
        simp only [hi1, if_true]
        split <;> split <;> omega
      · obtain ⟨ht, hc⟩ := hother hi1
        rw [ht, hc]
        simp only [hi1, if_false]
        split <;> split <;> omega

/-! ## The pages held -/

theorem LeakInv.pages (h : LeakInv s) :
    taken (s.heap.pools 1) + spare (s.heap.pools 1) = 224 * (s.heap.pools 1).slabs.length ∧
      spare (s.heap.pools 1) < 224 := by
  obtain ⟨heap, out, mine⟩ := s
  obtain ⟨⟨ps, blocks, nr, pools, rfl, hinv⟩, hpacked⟩ := h
  exact hpacked.pages (hinv.heap.poolOk 1 hinv.two) (hinv.account 1 hinv.two)

theorem LeakInv.two (h : LeakInv s) : 2 ≤ s.heap.nrPools := by
  obtain ⟨⟨ps, blocks, nr, pools, hheap, hinv⟩, _⟩ := h
  rw [hheap]
  exact hinv.two

/-- The cache pool apart, only the pool that is cycled may get a page. -/
theorem pagesHeld_cycles {k' : Kmem} (h1 : 1 < k.nrPools) (hi : i < k.nrPools)
    (hnr : k'.nrPools = k.nrPools) (hslabs : ∀ j ≠ 1, (k'.pools j).slabs.length =
      (k.pools j).slabs.length + if j = i then firstPage k i else 0) :
    pagesHeld k' + (k.pools 1).slabs.length =
      pagesHeld k + firstPage k i + (k'.pools 1).slabs.length := by
  have hmem : 1 ∈ Finset.range k.nrPools := Finset.mem_range.2 h1
  have hrest : ∑ j ∈ (Finset.range k.nrPools).erase 1, (k'.pools j).slabs.length =
      ∑ j ∈ (Finset.range k.nrPools).erase 1, (k.pools j).slabs.length + firstPage k i := by
    rw [Finset.sum_congr rfl fun j hj => hslabs j (Finset.ne_of_mem_erase hj),
      Finset.sum_add_distrib, Finset.sum_ite_eq']
    by_cases hi1 : i = 1
    · simp [hi1, firstPage]
    · simp [hi1, hi]
  rw [pagesHeld, pagesHeld, hnr, ← Finset.add_sum_erase _ _ hmem, ← Finset.add_sum_erase _ _ hmem,
    hrest]
  omega

/-- **What `n` cycles leave behind.** In every state of a run, for every pool: `n` cycles of
allocating one object and giving it back add at most `b` pages to those the slabs hold, the
page for the object apart, exactly when `n` (one more for the cache pool itself) is at most
the number of freed nodes on the cache pool's chain, of untouched slots in its slabs and of
the slots of `b` new slabs. -/
theorem slab_cycles_pages_iff (words : BitmapT) (descs : Nat → Page) (base pages : Nat)
    (hbase : base % 4096 = 0) (hpages : 0 < pages) (hmanaged : managedPages pages < 524288)
    (htop : base + 4096 * pages + 262144 ≤ 2 ^ 48) (hdescs : ∀ i < pages, descs i = ⟨0, 0⟩)
    (hfit : DescsFit pages) {secs : List PageSection}
    (hinit : pageInit words descs base pages = .ok secs) {s : SlabSys}
    (hrun : Steps sstep sok (start secs) s) {i n : Nat} (hi : i < s.heap.nrPools) (hn : 0 < n)
    {k : Kmem} (hk : slabCycles i n s.heap = .ok k) (b : Nat) :
    pagesHeld k ≤ pagesHeld s.heap + firstPage s.heap i + b ↔
      n + (if i = 1 then 1 else 0) ≤
        (s.heap.pools 1).cache.length + spare (s.heap.pools 1) + 224 * b := by
  obtain rfl := PageRuns.init_eq hbase hpages hmanaged htop hinit
  have hstart := start_leakInv (init_placed words descs hbase hpages hmanaged htop)
    (init_secInv_of_fit words base hmanaged hdescs hfit)
  have hs := hrun.invariant hstart sstep_leakInv
  obtain ⟨⟨s', rfl, hs'⟩, hnr, hslabs, htaken⟩ := slabCycles_effect hs hi hk
  have hsum := pagesHeld_cycles hs.two hi hnr fun j hj => by
    rw [hslabs j hj]
    simp [Nat.ne_of_gt hn]
  obtain ⟨hcount, _⟩ := hs.pages
  obtain ⟨hcount', hspare'⟩ := hs'.pages
  rw [newNodes, if_neg (Nat.ne_of_gt hn)] at htaken
  constructor
  · intro hle
    omega
  · intro hle
    omega

/-- The heap `init_slab` makes of 64 pages. -/
def bootHeap : Option Kmem := (initSlab (sections PageRuns.smallSection)).toOption.join

/-- One cycle of the 8-byte pool after `init_slab`, with a page for nodes allowed. -/
theorem slab_cycles_pages_iff_one_cycle :
    ∃ s k, Steps sstep sok (start (sections PageRuns.smallSection)) s ∧
      slabCycles 2 1 s.heap = .ok k ∧ pagesHeld k ≤ pagesHeld s.heap + firstPage s.heap 2 + 1 := by
  have hboot : bootHeap.map (fun k => k.nrPools) = some 9 := by
    decide +kernel
  have hcycle : (bootHeap.bind fun k => (slabCycles 2 1 k).toOption).isSome = true := by
    decide +kernel
  obtain ⟨heap, hheap, hnr⟩ := Option.map_eq_some_iff.1 hboot
  rw [hheap, Option.bind_some] at hcycle
  obtain ⟨k, hk⟩ := Option.isSome_iff_exists.1 hcycle
  have hslab : initSlab (sections PageRuns.smallSection) = .ok (some heap) := by
    apply ok_of_toOption
    exact Option.join_eq_some_iff.1 hheap
  obtain ⟨out, hrun⟩ := initSlab_run hslab
  have hiff := slab_cycles_pages_iff (fun _ => 0#64) PageRuns.zeroDescs 0x40000000 64 (by decide)
    (by decide) (by decide) (by decide) (fun _ _ => rfl) (by decide) PageRuns.pageInit_small hrun
    (show 2 < heap.nrPools by omega) Nat.one_pos (ok_of_toOption hk) 1
  refine ⟨_, k, hrun, ok_of_toOption hk, hiff.2 ?_⟩
  rw [if_neg (by decide)]
  omega

/-- 225 cycles of the 8-byte pool after `init_slab`: the slabs hold one page more than after
the first cycle, although no more than one object was ever in use. -/
theorem slab_cycles_leak_page :
    (bootHeap.bind fun k => (slabCycles 2 1 k).toOption.map pagesHeld) = some 3 ∧
      (bootHeap.bind fun k => (slabCycles 2 225 k).toOption.map pagesHeld) = some 4 := by
  constructor
  · decide +kernel
  · decide +kernel

end SpringOs.SlabLeak
