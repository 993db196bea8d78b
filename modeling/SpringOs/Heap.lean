import Mathlib.Data.List.Nodup
import SpringOs.PageRuns
import SpringOs.SlabAlloc

/-!
The invariant that ties the slab pools to the page allocator: every slab sits on
a page of its own that the page allocator counts as live, its objects are where
its header says, and the objects handed out and the freed ones waiting in a
cache are distinct.

* `slabAllocPool_step`: `slab_alloc_pool` returns an object that was not in use,
  or stops because no page is left; `PoolStep` is all it can do to its pool;
* `slabFree_step`: `slab_free` of an object in use passes its assertions;
* `slabOwnAddr_obj`, `slabOwnAddr_page`: `slab_own_addr` tells objects from pages.
-/

namespace SpringOs.Heap
open Lib.Word Lib.Ranges Bitmap Kernel PageAlloc PageRuns SlabAlloc
open Function (update update_self update_of_ne update_idem update_eq_self)

variable {x i j count pos : Nat} {pool : SlabPool} {s t : Slab} {rest : List Slab}

/-! ## Objects of a pool -/

/-- `x` is the address of an object that has been taken from a slab of `pool`. -/
def IsObj (pool : SlabPool) (x : Nat) : Prop :=
  ∃ s ∈ pool.slabs, ∃ j < s.active, x = s.objStart + pool.size * j

structure PoolOk (i : Nat) (pool : SlabPool) : Prop where
  size : PoolSize pool.size
  objSize : pool.objSize = pool.size
  order : pool.gfporder = 0
  slabs : ∀ s ∈ pool.slabs, SlabOk i pool.size s
  room : ∀ s ∈ pool.partials, 0 < s.nrFree
  pages : (pool.slabs.map Slab.page).Nodup

theorem newPool_ok {size : Nat} (hsize : PoolSize size) (i : Nat) : PoolOk i (newPool size) := by
  have hslabs : (newPool size).slabs = [] := rfl
  exact ⟨hsize, rfl, rfl, by simp [hslabs], by simp [newPool], by simp [hslabs]⟩

theorem page_eq_of_close {p q : Nat} (hp : p % 4096 = 0) (hq : q % 4096 = 0) (h1 : p ≤ x)
    (h2 : x < p + 4096) (h3 : q ≤ x) (h4 : x < q + 4096) : p = q := by
  omega

theorem PoolOk.eq_of_page (h : PoolOk i pool) (hs : s ∈ pool.slabs) (ht : t ∈ pool.slabs)
    (he : s.page = t.page) : s = t :=
  List.inj_on_of_nodup_map h.pages hs ht he

theorem PoolOk.obj_inj (h : PoolOk i pool) (hs : s ∈ pool.slabs) (ht : t ∈ pool.slabs) {l : Nat}
    (hj : j < s.nrObj) (hl : l < t.nrObj)
    (he : s.objStart + pool.size * j = t.objStart + pool.size * l) : s = t ∧ j = l := by
  have hb := (h.size).bounds
  obtain ⟨h1, h2⟩ := (h.slabs s hs).obj_bounds hj
  obtain ⟨h3, h4⟩ := (h.slabs t ht).obj_bounds hl
  obtain rfl : s = t := h.eq_of_page hs ht
    (page_eq_of_close (x := s.objStart + pool.size * j) (h.slabs s hs).aligned
      (h.slabs t ht).aligned (by omega) (by omega) (by omega) (by omega))
  exact ⟨rfl, Nat.eq_of_mul_eq_mul_left (by omega) (Nat.add_left_cancel he)⟩

theorem PoolOk.obj_apart (h : PoolOk i pool) {y : Nat} (hx : IsObj pool x) (hy : IsObj pool y)
    (hne : x ≠ y) : Extent.Apart ⟨x, pool.size⟩ ⟨y, pool.size⟩ := by
  obtain ⟨s, hs, j, hj, rfl⟩ := hx
  obtain ⟨t, ht, l, hl, rfl⟩ := hy
  have hj' := (h.slabs s hs).active_le
  have hl' := (h.slabs t ht).active_le
  obtain ⟨h1, h2⟩ := (h.slabs s hs).obj_bounds (j := j) (by omega)
  obtain ⟨h3, h4⟩ := (h.slabs t ht).obj_bounds (j := l) (by omega)
  have ha := (h.slabs s hs).aligned
  have ha' := (h.slabs t ht).aligned
  simp only [Extent.Apart]
  by_cases he : s.page = t.page
  · obtain rfl := h.eq_of_page hs ht he
    rcases Nat.lt_trichotomy j l with hlt | rfl | hlt
    · have := Nat.mul_le_mul_left pool.size (show j + 1 ≤ l by omega)
      rw [Nat.mul_succ] at this
      omega
    · exact absurd rfl hne
    · have := Nat.mul_le_mul_left pool.size (show l + 1 ≤ j by omega)
      rw [Nat.mul_succ] at this
      omega
  · omega

/-! ## Taking an object -/

theorem takeObject_slabs (pool : SlabPool) (s : Slab) (rest : List Slab) :
    (takeObject pool [] s rest).slabs.Perm (advance s :: (rest ++ pool.full)) := by
  unfold takeObject SlabPool.slabs advance
  simp only [List.nil_append]
  split
  · exact List.perm_middle
  · simp

theorem takeObject_mem :
    t ∈ (takeObject pool [] s rest).slabs ↔ t = advance s ∨ t ∈ rest ++ pool.full := by
  rw [(takeObject_slabs pool s rest).mem_iff, List.mem_cons]

@[simp] theorem takeObject_size (pool : SlabPool) (b : List Slab) (s : Slab) (a : List Slab) :
    (takeObject pool b s a).size = pool.size := by
  unfold takeObject
  simp only
  split <;> rfl

@[simp] theorem takeObject_objSize (pool : SlabPool) (b : List Slab) (s : Slab) (a : List Slab) :
    (takeObject pool b s a).objSize = pool.objSize := by
  unfold takeObject
  simp only
  split <;> rfl

@[simp] theorem takeObject_cache (pool : SlabPool) (b : List Slab) (s : Slab) (a : List Slab) :
    (takeObject pool b s a).cache = pool.cache := by
  unfold takeObject
  simp only
  split <;> rfl

theorem slabs_eq_cons (hpart : pool.partials = s :: rest) :
    pool.slabs = s :: (rest ++ pool.full) := by
  rw [SlabPool.slabs, hpart, List.cons_append]

theorem PoolOk.take (h : PoolOk i pool) (hpart : pool.partials = s :: rest) :
    PoolOk i (takeObject pool [] s rest) := by
  have hslabs := slabs_eq_cons hpart
  have hs : s ∈ pool.slabs := by simp [hslabs]
  have hfree := h.room s (by simp [hpart])
  refine ⟨by simpa using h.size, by simpa using h.objSize, ?_, ?_, ?_, ?_⟩
  · rw [← h.order]
    unfold takeObject
    simp only
    split <;> rfl
  · intro t ht
    rw [takeObject_size]
    rcases takeObject_mem.mp ht with rfl | ht
    · exact (h.slabs s hs).advance hfree
    · exact h.slabs t (by rw [hslabs]; exact List.mem_cons_of_mem _ ht)
  · have hrest : ∀ t ∈ rest, 0 < t.nrFree := fun t ht => h.room t (by simp [hpart, ht])
    unfold takeObject
    simp only [List.nil_append]
    split
    · exact hrest
    · rename_i hne
      intro t ht
      rcases List.mem_cons.mp ht with rfl | ht
      · simp only
        omega
      · exact hrest t ht
  · rw [((takeObject_slabs pool s rest).map Slab.page).nodup_iff]
    have hpages := h.pages
    rw [hslabs] at hpages
    exact hpages

theorem IsObj.take (hpart : pool.partials = s :: rest) (h : IsObj pool x) :
    IsObj (takeObject pool [] s rest) x := by
  obtain ⟨t, ht, j, hj, rfl⟩ := h
  rw [slabs_eq_cons hpart] at ht
  rcases List.mem_cons.mp ht with rfl | ht
  · exact ⟨_, takeObject_mem.mpr (.inl rfl), j, Nat.lt_succ_of_lt hj, by rw [takeObject_size]; rfl⟩
  · exact ⟨t, takeObject_mem.mpr (.inr ht), j, hj, by rw [takeObject_size]⟩

theorem IsObj.fresh (h : PoolOk i pool) (hpart : pool.partials = s :: rest) :
    IsObj (takeObject pool [] s rest) (s.objStart + pool.size * s.active) ∧
      ¬ IsObj pool (s.objStart + pool.size * s.active) := by
  have hs : s ∈ pool.slabs := by simp [slabs_eq_cons hpart]
  have hfree := h.room s (by simp [hpart])
  have htaken := (h.slabs s hs).taken
  constructor
  · exact ⟨_, takeObject_mem.mpr (.inl rfl), s.active, Nat.lt_succ_self _,
      by rw [takeObject_size]; rfl⟩
  · rintro ⟨t, ht, j, hj, he⟩
    have hle := (h.slabs t ht).active_le
    obtain ⟨rfl, rfl⟩ := h.obj_inj hs ht (j := s.active) (by omega) (by omega) he
    omega

/-! ## The invariant -/

/-- The heap over the section `ps` whose live blocks are `blocks`. `used i` are
objects of pool `i` that are handed out, `runs` page blocks that are. -/
structure HeapInv (ps : PageSection) (blocks : List Extent) (nr : Nat) (pools : Nat → SlabPool)
    (used : Nat → List Nat) (runs : List Extent) : Prop where
  placed : Placed ps
  sec : SecInv ps blocks
  poolOk : ∀ i < nr, PoolOk i (pools i)
  apart : ∀ i < nr, ∀ j < nr, i ≠ j → ∀ s ∈ (pools i).slabs, ∀ t ∈ (pools j).slabs, s.page ≠ t.page
  backed : ∀ i < nr, ∀ s ∈ (pools i).slabs,
    ∃ pos, ⟨pos, 1⟩ ∈ blocks ∧ s.page = pageVa (sections ps) pos
  distinct : ∀ i < nr, ((pools i).cache.map SlabCache.obj ++ used i).Nodup
  objs : ∀ i < nr, ∀ x ∈ (pools i).cache.map SlabCache.obj ++ used i, IsObj (pools i) x
  runsLive : ∀ r ∈ runs, r ∈ blocks ∧
    ∀ i < nr, ∀ s ∈ (pools i).slabs, s.page ≠ pageVa (sections ps) r.pos
  runsNodup : runs.Nodup

theorem heapInv_start {ps : PageSection} (hp : Placed ps) (hsec : SecInv ps []) :
    HeapInv ps [] 2 (fun i => if i = 0 then rootPool else cachePool) (fun _ => []) [] := by
  have hslabs : ∀ i, (if i = 0 then rootPool else cachePool).slabs = [] := by
    intro i
    split <;> rfl
  have hcache : ∀ i, (if i = 0 then rootPool else cachePool).cache = [] := by
    intro i
    split <;> rfl
  refine ⟨hp, hsec, ?_, by simp [hslabs], by simp [hslabs], by simp [hcache], by simp [hcache],
    by simp, List.nodup_nil⟩
  intro i _
  by_cases h0 : i = 0
  · simp only [h0, if_true]
    exact newPool_ok (poolSize_pow (m := 6) (by decide) (by decide)) 0
  · simp only [h0, if_false]
    exact newPool_ok (poolSize_pow (m := 4) (by decide) (by decide)) i

variable {ps : PageSection} {blocks : List Extent} {nr : Nat} {pools : Nat → SlabPool}
  {used : Nat → List Nat} {runs : List Extent}

theorem pageVa_inj (hp : Placed ps) {p q : Nat} (hlp : p < limit ps) (hlq : q < limit ps)
    (h : pageVa (sections ps) p = pageVa (sections ps) q) : p = q := by
  rw [← hp.indexOf_pageVa hlp, ← hp.indexOf_pageVa hlq, h]

theorem pageVa_slab (hp : Placed ps) (pos : Nat) (hpos : pos + 1 < limit ps) :
    pageVa (sections ps) pos % 4096 = 0 ∧ pageVa (sections ps) pos + 8192 ≤ 2 ^ 64 := by
  have htop := hp.top
  have hal := hp.aligned
  rw [hp.pageVa_eq (by omega)]
  unfold kernelAddrMask
  omega

theorem FreeArea.lt_limit (h : FreeArea ps.bitmap (bitmapSize ps.nrPages) count pos) :
    pos + count < limit ps := by
  unfold limit
  exact h.2

theorem HeapInv.page_ne_fresh (h : HeapInv ps blocks nr pools used runs) (hcount : 1 ≤ count)
    (hfree : FreeArea ps.bitmap (bitmapSize ps.nrPages) count pos) (hi : i < nr)
    (hs : s ∈ (pools i).slabs) : s.page ≠ pageVa (sections ps) pos := by
  obtain ⟨q, hq, hpage⟩ := h.backed i hi s hs
  intro he
  have hend : q + 1 < limit ps := (h.sec.size _ hq).2.2
  have hlt := FreeArea.lt_limit hfree
  have hqp := pageVa_inj h.placed (p := q) (q := pos) (by omega) (by omega) (hpage.symm.trans he)
  have hap := h.sec.apart_of_clear hcount hfree.1 hq
  simp only [Extent.Apart] at hap
  omega

/-! ## How the heap may change -/

theorem HeapInv.grant (h : HeapInv ps blocks nr pools used runs) (hcount : 1 ≤ count)
    (hmax : count ≤ 512) (hfree : FreeArea ps.bitmap (bitmapSize ps.nrPages) count pos) :
    HeapInv (grant ps pos count) (⟨pos, count⟩ :: blocks) nr pools used runs where
  placed := h.placed.grant pos count
  sec := h.sec.grant h.placed hcount hmax hfree
  poolOk := h.poolOk
  apart := h.apart
  backed i hi s hs := by
    obtain ⟨q, hq, hpage⟩ := h.backed i hi s hs
    exact ⟨q, List.mem_cons_of_mem _ hq, hpage⟩
  distinct := h.distinct
  objs := h.objs
  runsLive r hr := ⟨List.mem_cons_of_mem _ (h.runsLive r hr).1, (h.runsLive r hr).2⟩
  runsNodup := h.runsNodup

theorem forall_update {P : Nat → SlabPool → Prop} (hold : ∀ j < nr, P j (pools j))
    (hnew : P i pool) : ∀ j < nr, P j (update pools i pool j) := by
  intro j hj
  by_cases hji : j = i
  · subst hji
    rwa [update_self]
  · rw [update_of_ne hji]
    exact hold j hj

theorem apart_update
    (hold : ∀ j < nr, ∀ l < nr, j ≠ l → ∀ s ∈ (pools j).slabs, ∀ t ∈ (pools l).slabs,
      s.page ≠ t.page)
    (hnew : ∀ t ∈ pool.slabs, ∀ j < nr, j ≠ i → ∀ s ∈ (pools j).slabs, s.page ≠ t.page) :
    ∀ j < nr, ∀ l < nr, j ≠ l → ∀ s ∈ (update pools i pool j).slabs,
      ∀ t ∈ (update pools i pool l).slabs, s.page ≠ t.page := by
  intro j hj l hl hne s hs t ht
  by_cases hji : j = i
  · subst hji
    rw [update_self] at hs
    rw [update_of_ne (Ne.symm hne)] at ht
    exact (hnew s hs l hl (Ne.symm hne) t ht).symm
  · rw [update_of_ne hji] at hs
    by_cases hli : l = i
    · subst hli
      rw [update_self] at ht
      exact hnew t ht j hj hne s hs
    · rw [update_of_ne hli] at ht
      exact hold j hj l hl hne s hs t ht

/-- One pool changes: its slabs are on pages of its own, and its objects in use
are distinct. -/
theorem HeapInv.setPool (h : HeapInv ps blocks nr pools used runs) {objs : List Nat}
    (hok : PoolOk i pool)
    (hbacked : ∀ t ∈ pool.slabs, ∃ pos, ⟨pos, 1⟩ ∈ blocks ∧ t.page = pageVa (sections ps) pos)
    (hapart : ∀ t ∈ pool.slabs, ∀ j < nr, j ≠ i → ∀ s ∈ (pools j).slabs, s.page ≠ t.page)
    (hruns : ∀ t ∈ pool.slabs, ∀ r ∈ runs, t.page ≠ pageVa (sections ps) r.pos)
    (hdistinct : (pool.cache.map SlabCache.obj ++ objs).Nodup)
    (hobjs : ∀ x ∈ pool.cache.map SlabCache.obj ++ objs, IsObj pool x) :
    HeapInv ps blocks nr (update pools i pool) (update used i objs) runs := by
  have hallBacked := forall_update (i := i)
    (P := fun _ pool => ∀ s ∈ pool.slabs, ∃ pos, ⟨pos, 1⟩ ∈ blocks ∧
      s.page = pageVa (sections ps) pos) h.backed hbacked
  refine ⟨h.placed, h.sec, forall_update h.poolOk hok, apart_update h.apart hapart, hallBacked,
    ?_, ?_, ?_, h.runsNodup⟩
  · intro j hj
    by_cases he : j = i
    · subst he
      simpa using hdistinct
    · simpa [he] using h.distinct j hj
  · intro j hj
    by_cases he : j = i
    · subst he
      simpa using hobjs
    · simpa [he] using h.objs j hj
  · intro r hr
    obtain ⟨hlive, hpages⟩ := h.runsLive r hr
    exact ⟨hlive, forall_update
      (P := fun _ pool => ∀ s ∈ pool.slabs, s.page ≠ pageVa (sections ps) r.pos) hpages
      fun s hs => hruns s hs r hr⟩

section

variable (h : HeapInv ps blocks nr pools used runs) (hi : i < nr)
include h hi

theorem HeapInv.setPool_samePages {objs : List Nat} (hok : PoolOk i pool)
    (hpages : ∀ t ∈ pool.slabs, ∃ s ∈ (pools i).slabs, s.page = t.page)
    (hdistinct : (pool.cache.map SlabCache.obj ++ objs).Nodup)
    (hobjs : ∀ x ∈ pool.cache.map SlabCache.obj ++ objs, IsObj pool x) :
    HeapInv ps blocks nr (update pools i pool) (update used i objs) runs := by
  refine h.setPool hok ?_ ?_ ?_ hdistinct hobjs
  · intro t ht
    obtain ⟨s, hs, he⟩ := hpages t ht
    rw [← he]
    exact h.backed i hi s hs
  · intro t ht j hj hne u hu
    obtain ⟨s, hs, he⟩ := hpages t ht
    rw [← he]
    exact h.apart j hj i hi hne u hu s hs
  · intro t ht r hr
    obtain ⟨s, hs, he⟩ := hpages t ht
    rw [← he]
    exact (h.runsLive r hr).2 i hi s hs

/-! ## Refill -/

theorem slabRefill_spec :
    (slabRefill ⟨sections ps, nr, pools⟩ i = .ok none ∧
      ∀ p, ¬ FreeArea ps.bitmap (bitmapSize ps.nrPages) 1 p) ∨
    ∃ pos slab, FreeArea ps.bitmap (bitmapSize ps.nrPages) 1 pos ∧
      slab.page = pageVa (sections ps) pos ∧ FreshSlab i (pools i).size slab ∧
      slabRefill ⟨sections ps, nr, pools⟩ i = .ok (some ⟨sections (grant ps pos 1), nr,
        update pools i { pools i with partials := slab :: (pools i).partials }⟩) := by
  have hsmall := h.placed.small
  have hok := h.poolOk i hi
  rcases pageAllocn_cases ps (le_refl 1) (by omega) (by omega) with ⟨he, hnone⟩ | ⟨pos, hfree, he⟩
  · have hpage : pageAlloc (sections ps) = .ok (none, sections ps) := he
    refine .inl ⟨?_, hnone⟩
    simp only [slabRefill, hpage, bind, Except.bind]
  · have hlt := FreeArea.lt_limit hfree.1
    obtain ⟨hal, htop⟩ := pageVa_slab h.placed pos hlt
    obtain ⟨n, hn, h1, h2, h3, h4⟩ := caculateNrObject_spec hok.size htop
    refine .inr ⟨pos, freshSlab (pageVa (sections ps) pos) i (pools i).size n, hfree.1, rfl,
      freshSlab_ok i hok.size hal htop h1 h2 h3 h4, ?_⟩
    rw [h.placed.pa_eq (by omega)] at he
    have hpage : pageAlloc (sections ps) =
        .ok (some (pageVa (sections ps) pos), sections (grant ps pos 1)) := he
    simp only [slabRefill, hpage, hok.order, hn, bind, Except.bind]

theorem HeapInv.refill (hfree : FreeArea ps.bitmap (bitmapSize ps.nrPages) 1 pos) {slab : Slab}
    (hpage : slab.page = pageVa (sections ps) pos) (hok : SlabOk i (pools i).size slab)
    (hnew : 0 < slab.nrFree) :
    HeapInv (PageAlloc.grant ps pos 1) (⟨pos, 1⟩ :: blocks) nr
      (update pools i { pools i with partials := slab :: (pools i).partials }) used
      runs := by
  have hpool := h.poolOk i hi
  have hslabs : SlabPool.slabs { pools i with partials := slab :: (pools i).partials } =
      slab :: (pools i).slabs := rfl
  have hfresh : ∀ j < nr, ∀ s ∈ (pools j).slabs, s.page ≠ slab.page := by
    intro j hj s hs
    rw [hpage]
    exact h.page_ne_fresh (le_refl 1) hfree hj hs
  have hmem := h.grant (le_refl 1) (by omega) hfree
  have hold : update used i (used i) = used := update_eq_self i used
  rw [← hold]
  refine hmem.setPool ?_ ?_ ?_ ?_ (h.distinct i hi) ?_
  · refine ⟨hpool.size, hpool.objSize, hpool.order, ?_, ?_, ?_⟩
    · rw [hslabs]
      exact List.forall_mem_cons.mpr ⟨hok, hpool.slabs⟩
    · exact List.forall_mem_cons.mpr ⟨hnew, hpool.room⟩
    · rw [hslabs, List.map_cons, List.nodup_cons]
      refine ⟨?_, hpool.pages⟩
      intro hmem
      obtain ⟨s, hs, he⟩ := List.mem_map.mp hmem
      exact hfresh i hi s hs he
  · rw [hslabs]
    refine List.forall_mem_cons.mpr ⟨⟨pos, List.mem_cons_self, hpage⟩, hmem.backed i hi⟩
  · rw [hslabs]
    refine List.forall_mem_cons.mpr ⟨fun j hj _ s hs => hfresh j hj s hs, ?_⟩
    intro t ht j hj hne s hs
    exact h.apart j hj i hi hne s hs t ht
  · rw [hslabs]
    refine List.forall_mem_cons.mpr ⟨?_, fun t ht r hr => (h.runsLive r hr).2 i hi t ht⟩
    intro r hr he
    have hblock := (h.runsLive r hr).1
    obtain ⟨hlen, _, hend⟩ := h.sec.size r hblock
    have hlt := FreeArea.lt_limit hfree
    have hpos := pageVa_inj h.placed (p := pos) (q := r.pos) (by omega) (by omega)
      (hpage.symm.trans he)
    have hap := h.sec.apart_of_clear (le_refl 1) hfree.1 hblock
    simp only [Extent.Apart] at hap
    omega
  · intro x hx
    obtain ⟨s, hs, j, hj, rfl⟩ := h.objs i hi x hx
    exact ⟨s, List.mem_cons_of_mem _ hs, j, hj, rfl⟩

theorem HeapInv.take (hpart : (pools i).partials = s :: rest) :
    HeapInv ps blocks nr (update pools i (takeObject (pools i) [] s rest))
      (update used i ((s.objStart + (pools i).size * s.active) :: used i)) runs := by
  have hpool := h.poolOk i hi
  obtain ⟨hobj, hnew⟩ := IsObj.fresh hpool hpart
  refine h.setPool_samePages hi (hpool.take hpart) ?_ ?_ ?_
  · intro t ht
    rw [slabs_eq_cons hpart]
    rcases takeObject_mem.mp ht with rfl | ht
    · exact ⟨s, List.mem_cons_self, rfl⟩
    · exact ⟨t, List.mem_cons_of_mem _ ht, rfl⟩
  · rw [takeObject_cache, List.perm_middle.nodup_iff, List.nodup_cons]
    exact ⟨fun hmem => hnew (h.objs i hi _ hmem), h.distinct i hi⟩
  · intro x hx
    rw [takeObject_cache, List.perm_middle.mem_iff] at hx
    rcases List.mem_cons.mp hx with rfl | hx
    · exact hobj
    · exact (h.objs i hi x hx).take hpart

/-! ## `slab_alloc_pool` -/

theorem reallocLoop_take (hpart : (pools i).partials = s :: rest) (fuel : Nat) :
    reallocLoop i (fuel + 1) ⟨sections ps, nr, pools⟩ =
      .ok (s.objStart + (pools i).size * s.active,
        ⟨sections ps, nr, update pools i (takeObject (pools i) [] s rest)⟩) := by
  have hpool := h.poolOk i hi
  have hs : s ∈ (pools i).slabs := by simp [slabs_eq_cons hpart]
  have hfree := hpool.room s (by simp [hpart])
  have hok := hpool.slabs s hs
  have htaken := hok.taken
  have hlt : s.active < s.nrObj := by omega
  have hsplit : splitFree (s :: rest) = some ([], s, rest) := by
    rw [splitFree, if_pos hfree]
  have hidx : s.freelist[s.active]? = some (s.active : Int) := by
    simp [hok.freelist, hlt]
  have hobj : u64 ((s.objStart : Int) + (pools i).size * (s.active : Int)) =
      s.objStart + (pools i).size * s.active := by
    obtain ⟨_, hend⟩ := hok.obj_bounds hlt
    have htop := hok.top
    rw [← Int.natCast_mul]
    unfold u64
    omega
  unfold reallocLoop
  simp only [hpart, hsplit, hidx, hobj, reduceCtorEq, if_false]

end

/-- What `slab_alloc_pool` does to its pool when it returns the object `x`: it takes the
first freed object, the next object of the first slab with room, or the first of a new
slab. -/
inductive PoolStep (i : Nat) (pool : SlabPool) : Nat → SlabPool → Prop
  | hit {c : SlabCache} {rest : List SlabCache} (hcache : pool.cache = c :: rest) :
      PoolStep i pool c.obj { pool with cache := rest }
  | take {s : Slab} {rest : List Slab} (hcache : pool.cache = [])
      (hpart : pool.partials = s :: rest) :
      PoolStep i pool (s.objStart + pool.size * s.active) (takeObject pool [] s rest)
  | refill {s : Slab} (hcache : pool.cache = []) (hpart : pool.partials = [])
      (hnew : FreshSlab i pool.size s) :
      PoolStep i pool (s.objStart + pool.size * s.active)
        (takeObject { pool with partials := [s] } [] s [])

theorem PoolStep.size_eq {pool' : SlabPool} (h : PoolStep i pool x pool') :
    pool'.size = pool.size := by
  cases h with
  | hit _ => rfl
  | take _ _ => rw [takeObject_size]
  | refill _ _ _ => rw [takeObject_size]

/-- A property of the slabs is kept if taking an object keeps it and new slabs get it. -/
theorem PoolStep.forall_slabs {P : Slab → Prop} {pool' : SlabPool} (h : PoolStep i pool x pool')
    (hold : ∀ s ∈ pool.slabs, P s) (hadvance : ∀ s, P s → P (advance s))
    (hnew : ∀ s, FreshSlab i pool.size s → P (advance s)) : ∀ s ∈ pool'.slabs, P s := by
  intro t ht
  cases h with
  | hit _ => exact hold t ht
  | @take s rest _ hpart =>
    rw [slabs_eq_cons hpart] at hold
    rcases takeObject_mem.1 ht with rfl | ht
    · exact hadvance s (hold s List.mem_cons_self)
    · exact hold t (List.mem_cons_of_mem s ht)
  | @refill s _ hpart hs =>
    rcases takeObject_mem.1 ht with rfl | ht
    · exact hnew s hs
    · exact hold t (List.mem_append_right _ ht)

section

variable (h : HeapInv ps blocks nr pools used runs)
include h

/-- With no freed object and no slab with room, `slab_alloc_pool` makes a slab of a page that
was free, and returns its first object. -/
theorem slabAllocPool_refill (hi : i < nr) (hcache : (pools i).cache = [])
    (hpart : (pools i).partials = []) :
    (slabAllocPool ⟨sections ps, nr, pools⟩ i = .error (.assertion .slabAllocPool) ∧
      ∀ p, ¬ FreeArea ps.bitmap (bitmapSize ps.nrPages) 1 p) ∨
    ∃ pos slab, FreeArea ps.bitmap (bitmapSize ps.nrPages) 1 pos ∧
      slab.page = pageVa (sections ps) pos ∧ FreshSlab i (pools i).size slab ∧
      slabAllocPool ⟨sections ps, nr, pools⟩ i =
        .ok (slab.objStart + (pools i).size * slab.active, ⟨sections (PageAlloc.grant ps pos 1), nr,
          update pools i (takeObject { pools i with partials := [slab] } [] slab [])⟩) ∧
      HeapInv (PageAlloc.grant ps pos 1) (⟨pos, 1⟩ :: blocks) nr
        (update pools i (takeObject { pools i with partials := [slab] } [] slab []))
        (update used i ((slab.objStart + (pools i).size * slab.active) :: used i))
        runs := by
  have hrun : slabAllocPool ⟨sections ps, nr, pools⟩ i =
      reallocLoop i 2 ⟨sections ps, nr, pools⟩ := by
    rw [slabAllocPool, hcache]
  rw [hrun, reallocLoop]
  simp only [hpart, if_true]
  rcases slabRefill_spec h hi with ⟨he, hnone⟩ | ⟨pos, slab, hfree, hpage, hnew, he⟩
  · refine .inl ⟨?_, hnone⟩
    simp only [he, bind, Except.bind]
  · -- the new slab heads the list in the second round
    have hroom : 0 < slab.nrFree := by
      have htaken := hnew.ok.taken
      have hactive := hnew.active
      have hpos := hnew.pos
      omega
    have hinv := h.refill hi hfree hpage hnew.ok hroom
    rw [hpart] at hinv he
    have hpart' : (update pools i
        { pools i with partials := [slab] } i).partials = slab :: [] := by
      rw [update_self]
    have htake := reallocLoop_take hinv hi hpart' 0
    have hafter := hinv.take hi hpart'
    simp only [update_self, update_idem] at htake hafter
    refine .inr ⟨pos, slab, hfree, hpage, hnew, ?_, hafter⟩
    simp only [he, bind, Except.bind]
    exact htake

/-- **`slab_alloc_pool`** returns an object that was not in use, or stops
because the pool is empty and no page is left. -/
theorem slabAllocPool_step (hi : i < nr) :
    (slabAllocPool ⟨sections ps, nr, pools⟩ i = .error (.assertion .slabAllocPool) ∧
      ∀ p, ¬ FreeArea ps.bitmap (bitmapSize ps.nrPages) 1 p) ∨
    ∃ x ps' blocks' pool',
      slabAllocPool ⟨sections ps, nr, pools⟩ i =
        .ok (x, ⟨sections ps', nr, update pools i pool'⟩) ∧
      PoolStep i (pools i) x pool' ∧
      HeapInv ps' blocks' nr (update pools i pool') (update used i (x :: used i))
        runs ∧ ps'.paBase = ps.paBase := by
  cases hcache : (pools i).cache with
  | cons c rest =>
    have hpool := h.poolOk i hi
    refine .inr ⟨c.obj, ps, blocks, _, by rw [slabAllocPool, hcache], .hit hcache, ?_, rfl⟩
    have hperm : (rest.map SlabCache.obj ++ c.obj :: used i).Perm
        ((pools i).cache.map SlabCache.obj ++ used i) := by
      rw [hcache]
      exact List.perm_middle
    refine h.setPool_samePages hi
      ⟨hpool.size, hpool.objSize, hpool.order, hpool.slabs, hpool.room, hpool.pages⟩
      (fun t ht => ⟨t, ht, rfl⟩) ?_ ?_
    · exact hperm.nodup_iff.mpr (h.distinct i hi)
    · intro x hx
      exact h.objs i hi x (hperm.mem_iff.mp hx)
  | nil =>
    cases hpart : (pools i).partials with
    | cons s rest =>
      have hrun := reallocLoop_take h hi hpart 1
      refine .inr ⟨_, ps, blocks, _, ?_, .take hcache hpart, h.take hi hpart, rfl⟩
      rw [slabAllocPool, hcache]
      exact hrun
    | nil =>
      rcases slabAllocPool_refill h hi hcache hpart with
        hfail | ⟨pos, slab, _, _, hnew, he, hinv⟩
      · exact .inl hfail
      · exact .inr ⟨_, _, _, _, he, .refill hcache hpart hnew, hinv, rfl⟩

theorem slabAllocPool_spec (hi : i < nr) :
    (slabAllocPool ⟨sections ps, nr, pools⟩ i = .error (.assertion .slabAllocPool) ∧
      ∀ p, ¬ FreeArea ps.bitmap (bitmapSize ps.nrPages) 1 p) ∨
    ∃ x ps' blocks' pools',
      slabAllocPool ⟨sections ps, nr, pools⟩ i = .ok (x, ⟨sections ps', nr, pools'⟩) ∧
      HeapInv ps' blocks' nr pools' (update used i (x :: used i)) runs ∧
      ps'.paBase = ps.paBase ∧ (∀ j ≠ i, pools' j = pools j) ∧
      (pools' i).size = (pools i).size := by
  rcases slabAllocPool_step h hi with hfail | ⟨x, ps', blocks', pool', he, hstep, hinv, hbase⟩
  · exact .inl hfail
  · refine .inr ⟨x, ps', blocks', _, he, hinv, hbase, ?_, ?_⟩
    · intro j hj
      exact update_of_ne hj _ _
    · rw [update_self]
      exact hstep.size_eq

theorem HeapInv.addPool {size : Nat} (hsize : PoolSize size) (hused : used nr = []) :
    HeapInv ps blocks (nr + 1) (update pools nr (newPool size)) used runs := by
  have hold : ∀ i < nr + 1, i ≠ nr → i < nr := by omega
  have hslabs : (newPool size).slabs = [] := rfl
  refine ⟨h.placed, h.sec, ?_, ?_, ?_, ?_, ?_, ?_, h.runsNodup⟩
  · intro i hi
    by_cases he : i = nr
    · subst he
      rw [update_self]
      exact newPool_ok hsize i
    · simpa [he] using h.poolOk i (hold i hi he)
  · intro i hi j hj hne s hs t ht
    by_cases hei : i = nr
    · subst hei
      simp [hslabs] at hs
    · by_cases hej : j = nr
      · subst hej
        simp [hslabs] at ht
      · rw [update_of_ne hei] at hs
        rw [update_of_ne hej] at ht
        exact h.apart i (hold i hi hei) j (hold j hj hej) hne s hs t ht
  · intro i hi s hs
    by_cases he : i = nr
    · subst he
      simp [hslabs] at hs
    · rw [update_of_ne he] at hs
      exact h.backed i (hold i hi he) s hs
  · intro i hi
    by_cases he : i = nr
    · subst he
      simp [newPool, hused]
    · simpa [he] using h.distinct i (hold i hi he)
  · intro i hi
    by_cases he : i = nr
    · subst he
      simp [newPool, hused]
    · simpa [he] using h.objs i (hold i hi he)
  · intro r hr
    refine ⟨(h.runsLive r hr).1, ?_⟩
    intro i hi s hs
    by_cases he : i = nr
    · subst he
      simp [hslabs] at hs
    · rw [update_of_ne he] at hs
      exact (h.runsLive r hr).2 i (hold i hi he) s hs

/-! ## `slab_free` and `slab_own_addr` -/

theorem HeapInv.forget {used' : Nat → List Nat} {runs' : List Extent}
    (hused : ∀ i < nr, (used' i).Sublist (used i)) (hruns : runs'.Sublist runs) :
    HeapInv ps blocks nr pools used' runs' where
  placed := h.placed
  sec := h.sec
  poolOk := h.poolOk
  apart := h.apart
  backed := h.backed
  distinct i hi := (h.distinct i hi).sublist ((hused i hi).append_left _)
  objs i hi x hx := h.objs i hi x (((hused i hi).append_left _).subset hx)
  runsLive r hr := h.runsLive r (hruns.subset hr)
  runsNodup := h.runsNodup.sublist hruns

theorem headerAt_eq (hj : j < nr) (hs : s ∈ (pools j).slabs) :
    headerAt ⟨sections ps, nr, pools⟩ s.page = some s := by
  unfold headerAt
  cases hfind : ((List.range nr).flatMap fun i => (pools i).slabs).find? (fun t => t.page = s.page)
    with
  | none =>
    have hall := List.find?_eq_none.mp hfind s
      (List.mem_flatMap.mpr ⟨j, List.mem_range.mpr hj, hs⟩)
    simp at hall
  | some t =>
    obtain ⟨i, hi, ht⟩ := List.mem_flatMap.mp (List.mem_of_find?_eq_some hfind)
    have hpage : t.page = s.page := by simpa using List.find?_some hfind
    have hij : i = j := by
      by_contra hne
      exact h.apart i (List.mem_range.mp hi) j hj hne t ht s hs hpage
    subst hij
    rw [(h.poolOk i hj).eq_of_page ht hs hpage]

end

/-- What the assertions of `slab_free` look at, for an object in use. -/
theorem PoolOk.free_checks (h : PoolOk i pool) (hs : s ∈ pool.slabs) (hj : j < s.active) :
    alignDown (s.objStart + pool.size * j) 4096 = s.page ∧ s.magic = slabMagic ∧
      s.objStart ≤ s.objStart + pool.size * j ∧ s.nrFree < s.nrObj ∧
      isAligned (s.objStart + pool.size * j) pool.objSize = true := by
  have hok := h.slabs s hs
  have htaken := hok.taken
  have haligned := hok.aligned
  have htop := hok.top
  obtain ⟨hlo, hhi⟩ := hok.obj_bounds (j := j) (by omega)
  obtain ⟨m, hm, hm', hsize⟩ := h.size
  have hb := (h.size).bounds
  refine ⟨?_, hok.magic, Nat.le_add_right _ _, by omega, ?_⟩
  · rw [alignDown_page (by omega)]
    omega
  · rw [h.objSize]
    have hmod : (s.objStart + pool.size * j) % pool.size = 0 := by
      rw [Nat.add_mul_mod_self_left]
      exact hok.objAligned
    have hlt : s.objStart + pool.size * j < 2 ^ 64 := by omega
    rw [hsize] at hmod hlt ⊢
    rw [isAligned_pow (by omega) hlt, hmod]
    rfl

/-- `slab_free` of an object passes its assertions. -/
theorem slabFree_eq (h : HeapInv ps blocks nr pools used runs) (hj : j < nr)
    (hx : x ∈ (pools j).cache.map SlabCache.obj ++ used j) :
    slabFree ⟨sections ps, nr, pools⟩ x =
      (slabAllocPool ⟨sections ps, nr, pools⟩ 1 >>= fun r => .ok (pushCache r.2 j r.1 x)) := by
  obtain ⟨s, hs, l, hl, hxs⟩ := h.objs j hj x hx
  have hpool := h.poolOk j hj
  obtain ⟨hdown, hmagic, hstart, hfree, hal⟩ := hpool.free_checks hs hl
  rw [← hxs] at hdown hstart hal
  have hspool : s.pool = j := (hpool.slabs s hs).pool
  unfold slabFree
  rw [hdown, headerAt_eq h hj hs]
  simp only [hspool, hal, hmagic, hstart, hfree, ne_eq, not_true_eq_false, if_false,
    Bool.true_eq_false]

theorem HeapInv.push (h : HeapInv ps blocks nr pools used runs) (hj : j < nr) (hx : x ∈ used j)
    (node : Nat) :
    HeapInv ps blocks nr (pushCache ⟨sections ps, nr, pools⟩ j node x).pools
      (update used j ((used j).erase x)) runs := by
  have hpool := h.poolOk j hj
  have hperm : ((x :: (pools j).cache.map SlabCache.obj) ++ (used j).erase x).Perm
      ((pools j).cache.map SlabCache.obj ++ used j) := by
    rw [List.cons_append]
    exact (List.perm_middle.symm.trans ((List.perm_cons_erase hx).symm.append_left _))
  refine h.setPool_samePages hj
    ⟨hpool.size, hpool.objSize, hpool.order, hpool.slabs, hpool.room, hpool.pages⟩
    (fun t ht => ⟨t, ht, rfl⟩) ?_ ?_
  · exact hperm.nodup_iff.mpr (h.distinct j hj)
  · intro y hy
    exact h.objs j hj y (hperm.mem_iff.mp hy)

/-- **`slab_free`** of an object in use takes a node from the cache pool and puts the object
on the cache chain of its pool, or stops because no page is left for the node. -/
theorem slabFree_step (h : HeapInv ps blocks nr pools used runs) (hj : j < nr) (h1 : 1 < nr)
    (hx : x ∈ used j) :
    (slabFree ⟨sections ps, nr, pools⟩ x = .error (.assertion .slabAllocPool) ∧
      ∀ p, ¬ FreeArea ps.bitmap (bitmapSize ps.nrPages) 1 p) ∨
    ∃ node ps' blocks' pool',
      slabAllocPool ⟨sections ps, nr, pools⟩ 1 =
        .ok (node, ⟨sections ps', nr, update pools 1 pool'⟩) ∧
      PoolStep 1 (pools 1) node pool' ∧
      HeapInv ps' blocks' nr (update pools 1 pool')
        (update used 1 (node :: used 1)) runs ∧ ps'.paBase = ps.paBase ∧
      slabFree ⟨sections ps, nr, pools⟩ x =
        .ok (pushCache ⟨sections ps', nr, update pools 1 pool'⟩ j node x) := by
  rw [slabFree_eq h hj (List.mem_append_right _ hx)]
  rcases slabAllocPool_step h h1 with
    ⟨he, hnone⟩ | ⟨node, ps', blocks', pool', he, hstep, hinv, hbase⟩
  · exact .inl ⟨by rw [he]; rfl, hnone⟩
  · exact .inr ⟨node, ps', blocks', pool', he, hstep, hinv, hbase, by rw [he]; rfl⟩

theorem pushCache_size (k : Kmem) (j node x i : Nat) :
    ((pushCache k j node x).pools i).size = (k.pools i).size := by
  by_cases hij : i = j
  · subst hij
    simp [pushCache]
  · simp [pushCache, hij]

section

variable (h : HeapInv ps blocks nr pools used runs)
include h

/-- The node is not among the objects in use: no one but the chain knows it. -/
theorem slabFree_spec (hj : j < nr) (h1 : 1 < nr) (hx : x ∈ used j) :
    (slabFree ⟨sections ps, nr, pools⟩ x = .error (.assertion .slabAllocPool) ∧
      ∀ p, ¬ FreeArea ps.bitmap (bitmapSize ps.nrPages) 1 p) ∨
    ∃ ps' blocks' pools',
      slabFree ⟨sections ps, nr, pools⟩ x = .ok ⟨sections ps', nr, pools'⟩ ∧
      HeapInv ps' blocks' nr pools' (update used j ((used j).erase x)) runs ∧
      ps'.paBase = ps.paBase ∧ (∀ i, (pools' i).size = (pools i).size) ∧
      (j ≠ 1 → ∃ node, (pools' j).cache = ⟨node, x⟩ :: (pools j).cache) := by
  rcases slabFree_step h hj h1 hx with
    hfail | ⟨node, ps', blocks', pool', _, hstep, hinv, hbase, he⟩
  · exact .inl hfail
  · have hinv' : HeapInv ps' blocks' nr (update pools 1 pool') used runs := by
      refine hinv.forget ?_ (List.Sublist.refl _)
      intro i _
      by_cases hi1 : i = 1
      · subst hi1
        simp
      · simp [hi1]
    refine .inr ⟨ps', blocks', _, he, hinv'.push hj hx node, hbase, ?_, fun hj1 => ⟨node, ?_⟩⟩
    · intro i
      apply (pushCache_size ⟨sections ps', nr, update pools 1 pool'⟩ j node x i).trans
      by_cases hi1 : i = 1
      · subst hi1
        simpa using hstep.size_eq
      · simp [hi1]
    · simp [hj1]

theorem slabOwnAddr_obj (hj : j < nr) (hj0 : 0 < j) (hx : x ∈ used j) :
    slabOwnAddr ⟨sections ps, nr, pools⟩ x = true := by
  obtain ⟨s, hs, l, hl, rfl⟩ := h.objs j hj x (List.mem_append_right _ hx)
  have hpool := h.poolOk j hj
  have hle := (hpool.slabs s hs).active_le
  have hb := (hpool.size).bounds
  have hmul : (pools j).size * l < (pools j).size * s.nrObj :=
    Nat.mul_lt_mul_of_pos_left (by omega) (by omega)
  simp only [slabOwnAddr, List.any_eq_true, decide_eq_true_eq]
  refine ⟨j, List.mem_range'_1.mpr ⟨by omega, by omega⟩, s, hs, Nat.le_add_right _ _, ?_⟩
  rw [hpool.objSize]
  omega

/-- No page address is an object: objects follow a header. -/
theorem slabOwnAddr_page {va : Nat} (hva : va % 4096 = 0) :
    slabOwnAddr ⟨sections ps, nr, pools⟩ va = false := by
  simp only [slabOwnAddr, List.any_eq_false]
  intro i hi hfound
  obtain ⟨s, hs, hbound⟩ := List.any_eq_true.mp hfound
  rw [decide_eq_true_eq] at hbound
  have hi' : i < nr := by
    have := List.mem_range'_1.mp hi
    omega
  have hpool := h.poolOk i hi'
  rw [hpool.objSize] at hbound
  have hok := hpool.slabs s hs
  have h1 := hok.first
  have h2 := hok.last
  have h3 := hok.aligned
  omega

/-! ## Blocks of pages -/

/-- Blocks inside different blocks of the page allocator do not overlap. -/
theorem HeapInv.apart_of_pages {e f : Extent} (he : e ∈ blocks) (hf : f ∈ blocks) (hne : e ≠ f)
    {x y : Extent} (hx : pageVa (sections ps) e.pos ≤ x.pos)
    (hx' : x.pos + x.len ≤ pageVa (sections ps) e.pos + 4096 * e.len)
    (hy : pageVa (sections ps) f.pos ≤ y.pos)
    (hy' : y.pos + y.len ≤ pageVa (sections ps) f.pos + 4096 * f.len) : x.Apart y := by
  obtain ⟨_, _, hle⟩ := h.sec.size e he
  obtain ⟨_, _, hlf⟩ := h.sec.size f hf
  rw [h.placed.pageVa_eq (by omega)] at hx hx' hy hy'
  rcases h.sec.apart.forall he hf hne with hap | hap
  · exact .inl (by omega)
  · exact .inr (by omega)

theorem HeapInv.addRun (hcount : 1 ≤ count) (hmax : count ≤ 512)
    (hfree : FreeArea ps.bitmap (bitmapSize ps.nrPages) count pos) :
    HeapInv (PageAlloc.grant ps pos count) (⟨pos, count⟩ :: blocks) nr pools used
      (⟨pos, count⟩ :: runs) := by
  have hmem := h.grant hcount hmax hfree
  refine ⟨hmem.placed, hmem.sec, h.poolOk, h.apart, hmem.backed, h.distinct, h.objs, ?_, ?_⟩
  · refine List.forall_mem_cons.mpr ⟨⟨List.mem_cons_self, ?_⟩, hmem.runsLive⟩
    intro i hi s hs
    exact h.page_ne_fresh hcount hfree hi hs
  · refine List.nodup_cons.mpr ⟨?_, h.runsNodup⟩
    intro hin
    have hap := h.sec.apart_of_clear hcount hfree.1 (h.runsLive _ hin).1
    simp only [Extent.Apart] at hap
    omega

theorem HeapInv.releaseRun {r : Extent} (hr : r ∈ runs) :
    HeapInv (releaseAt ps r.pos) (blocks.filter (fun b => ¬ b.Has r.pos)) nr pools used
      (runs.erase r) := by
  obtain ⟨hblock, hpages⟩ := h.runsLive r hr
  have hhas : r.Has r.pos := ⟨le_refl _, by have := (h.sec.size r hblock).1; omega⟩
  have hmem := mem_filter_has h.sec.apart hblock hhas
  refine ⟨h.placed.releaseAt r.pos, h.sec.releaseAt hblock List.filter_sublist hmem, h.poolOk,
    h.apart, ?_, h.distinct, h.objs, ?_, h.runsNodup.erase r⟩
  · intro i hi s hs
    obtain ⟨pos, hpos, hpage⟩ := h.backed i hi s hs
    refine ⟨pos, (hmem _).mpr ⟨hpos, ?_⟩, hpage⟩
    intro he
    refine hpages i hi s hs ?_
    rw [hpage, ← he]
  · intro q hq
    obtain ⟨hne, hq⟩ := h.runsNodup.mem_erase_iff.mp hq
    exact ⟨(hmem q).mpr ⟨(h.runsLive q hq).1, hne⟩, (h.runsLive q hq).2⟩

end

end SpringOs.Heap
