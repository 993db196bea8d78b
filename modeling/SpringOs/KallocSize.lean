import Mathlib.Data.Nat.Find
import SpringOs.KmemRuns

/-!
`kalloc` for every `size_t`. The number of pages is an `int`, so a request of 8 TiB and more,
or one that `align_page_up` wraps around, may ask for few pages, none, or fewer than none.

* `Free`, `Marked`: the bytes that the bitmap, the slabs and the chains of freed objects give
  as free and as handed out;
* `pageAllocn_nonpos`: what `page_allocn` does when it is asked for no pages;
* `kalloc_marks`: up to 2 MiB a block consists of bytes that were free and are marked;
* **`kalloc_block_iff`**: beyond, no block `kalloc` returns does.
-/

namespace SpringOs.KallocSize
open Lib.Word Lib.Machine Lib.Ranges Bitmap Kernel PageAlloc SlabAlloc Heap KmemRuns
open PageRuns (Placed SecInv sect pageVa)

variable {x i o n : Nat} {k : Kmem} {count : Int}

/-! ## The books of the allocators -/

/-- Page `p` of the section. -/
def sectPage (secs : List PageSection) (p : Nat) : Extent := ⟨pageVa secs p, 4096⟩

/-- An object of the pool that nobody holds: not yet taken from its slab, or freed. -/
def Idle (pool : SlabPool) (o : Nat) : Prop :=
  (∃ s ∈ pool.slabs, ∃ j < s.nrObj, s.active ≤ j ∧ o = s.objStart + pool.size * j) ∨
    o ∈ pool.cache.map SlabCache.obj

/-- An object of the pool that was taken and has not been freed since. -/
def HandedOut (pool : SlabPool) (o : Nat) : Prop :=
  IsObj pool o ∧ o ∉ pool.cache.map SlabCache.obj

/-- The byte lies in a page that is free, or in an idle object. -/
def Free (k : Kmem) (x : Nat) : Prop :=
  (∃ p < limit (sect k.secs), getBit (sect k.secs).bitmap p = false ∧ (sectPage k.secs p).Has x) ∨
    ∃ i < k.nrPools, ∃ o, Idle (k.pools i) o ∧ (⟨o, (k.pools i).size⟩ : Extent).Has x

/-- The byte lies in a page that is in use and carries no slab, or in an object that is
handed out. -/
def Marked (k : Kmem) (x : Nat) : Prop :=
  (∃ p < limit (sect k.secs), getBit (sect k.secs).bitmap p = true ∧ (sectPage k.secs p).Has x ∧
      ∀ i < k.nrPools, ∀ s ∈ (k.pools i).slabs, s.page ≠ pageVa k.secs p) ∨
    ∃ i < k.nrPools, ∃ o, HandedOut (k.pools i) o ∧ (⟨o, (k.pools i).size⟩ : Extent).Has x

variable {ps : PageSection} {blocks : List Extent} {nr : Nat} {pools : Nat → SlabPool}
  {used : Nat → List Nat} {runs : List Extent} {live : List Block}

theorem page_unique (hp : Placed ps) {p q : Nat} (hlp : p < limit ps) (hlq : q < limit ps)
    (hpx : (sectPage (sections ps) p).Has x) (hqx : (sectPage (sections ps) q).Has x) : p = q := by
  simp only [sectPage, Extent.Has, hp.pageVa_eq hlp, hp.pageVa_eq hlq] at hpx hqx
  omega

section

variable (h : HeapInv ps blocks nr pools used runs)
include h

theorem slot_page (hi : i < nr) {s : Slab} (hs : s ∈ (pools i).slabs) {j : Nat} (hj : j < s.nrObj)
    (hx : (⟨s.objStart + (pools i).size * j, (pools i).size⟩ : Extent).Has x) :
    ∃ p < limit ps, getBit ps.bitmap p = true ∧ s.page = pageVa (sections ps) p ∧
      (sectPage (sections ps) p).Has x := by
  obtain ⟨p, hp, hpage⟩ := h.backed i hi s hs
  obtain ⟨hlo, hhi⟩ := ((h.poolOk i hi).slabs s hs).obj_bounds hj
  have hend : p + 1 < limit ps := (h.sec.size _ hp).2.2
  refine ⟨p, by omega, h.sec.held _ hp p ⟨le_refl _, Nat.lt_succ_self p⟩, hpage, ?_⟩
  simp only [sectPage, Extent.Has, ← hpage] at hx ⊢
  omega

theorem IsObj.slot (hi : i < nr) (ho : IsObj (pools i) o) :
    ∃ s ∈ (pools i).slabs, ∃ j < s.nrObj, j < s.active ∧ o = s.objStart + (pools i).size * j := by
  obtain ⟨s, hs, j, hj, rfl⟩ := ho
  exact ⟨s, hs, j, lt_of_lt_of_le hj ((h.poolOk i hi).slabs s hs).active_le, hj, rfl⟩

theorem Idle.slot (hi : i < nr) (ho : Idle (pools i) o) :
    ∃ s ∈ (pools i).slabs, ∃ j < s.nrObj, o = s.objStart + (pools i).size * j := by
  rcases ho with ⟨s, hs, j, hj, -, rfl⟩ | hcache
  · exact ⟨s, hs, j, hj, rfl⟩
  · obtain ⟨s, hs, j, hj, -, he⟩ :=
      IsObj.slot h hi (h.objs i hi o (List.mem_append_left _ hcache))
    exact ⟨s, hs, j, hj, he⟩

/-- Two slots with a common byte are one slot of one pool. -/
theorem slot_unique {l : Nat} (hi : i < nr) (hl : l < nr) {s t : Slab} (hs : s ∈ (pools i).slabs)
    (ht : t ∈ (pools l).slabs) {j m : Nat} (hj : j < s.nrObj) (hm : m < t.nrObj)
    (hx : (⟨s.objStart + (pools i).size * j, (pools i).size⟩ : Extent).Has x)
    (hx' : (⟨t.objStart + (pools l).size * m, (pools l).size⟩ : Extent).Has x) :
    i = l ∧ s = t ∧ j = m := by
  obtain ⟨p, hp, -, hpage, hpx⟩ := slot_page h hi hs hj hx
  obtain ⟨q, hq, -, hpage', hqx⟩ := slot_page h hl ht hm hx'
  have hpq := page_unique h.placed hp hq hpx hqx
  have hsame : s.page = t.page := by rw [hpage, hpage', hpq]
  obtain rfl : i = l := by
    by_contra hne
    exact h.apart i hi l hl hne s hs t ht hsame
  obtain rfl : s = t := (h.poolOk i hi).eq_of_page hs ht hsame
  refine ⟨rfl, rfl, ?_⟩
  simp only [Extent.Has] at hx hx'
  rcases Nat.lt_trichotomy j m with hlt | heq | hgt
  · have := Nat.mul_le_mul_left (pools i).size hlt
    rw [Nat.mul_succ] at this
    omega
  · exact heq
  · have := Nat.mul_le_mul_left (pools i).size hgt
    rw [Nat.mul_succ] at this
    omega

theorem not_marked_of_free (hfree : Free ⟨sections ps, nr, pools⟩ x) :
    ¬ Marked ⟨sections ps, nr, pools⟩ x := by
  rintro (⟨q, hq, hbit, hqx, hpages⟩ | ⟨l, hl, o, ⟨hobj, hcache⟩, hox⟩)
  · rcases hfree with ⟨p, hp, hclear, hpx⟩ | ⟨i, hi, o, hidle, hox⟩
    · obtain rfl := page_unique h.placed hp hq hpx hqx
      exact Bool.false_ne_true (hclear.symm.trans hbit)
    · obtain ⟨s, hs, j, hj, rfl⟩ := hidle.slot h hi
      obtain ⟨p, hp, -, hpage, hpx⟩ := slot_page h hi hs hj hox
      obtain rfl := page_unique h.placed hp hq hpx hqx
      exact hpages i hi s hs hpage
  · obtain ⟨t, ht, m, hm, hactive, rfl⟩ := IsObj.slot h hl hobj
    rcases hfree with ⟨p, hp, hclear, hpx⟩ | ⟨i, hi, o, hidle, hox'⟩
    · obtain ⟨q, hq, hbit, -, hqx⟩ := slot_page h hl ht hm hox
      obtain rfl := page_unique h.placed hp hq hpx hqx
      exact Bool.false_ne_true (hclear.symm.trans hbit)
    · obtain ⟨s, hs, j, hj, rfl⟩ := hidle.slot h hi
      obtain ⟨rfl, rfl, rfl⟩ := slot_unique h hi hl hs ht hj hm hox' hox
      rcases hidle with ⟨u, hu, r, hr, hidle, he⟩ | hin
      · obtain ⟨rfl, rfl⟩ := (h.poolOk i hi).obj_inj hs hu hj hr he
        omega
      · exact hcache hin

theorem Free.inSection (hx : Free ⟨sections ps, nr, pools⟩ x) :
    ∃ p < limit ps, (sectPage (sections ps) p).Has x := by
  rcases hx with ⟨p, hp, -, hpx⟩ | ⟨i, hi, o, hidle, hox⟩
  · exact ⟨p, hp, hpx⟩
  · obtain ⟨s, hs, j, hj, rfl⟩ := hidle.slot h hi
    obtain ⟨p, hp, -, -, hpx⟩ := slot_page h hi hs hj hox
    exact ⟨p, hp, hpx⟩

/-! ## Requests of up to 2 MiB -/

/-- The object `slab_alloc_pool` returns was idle, or part of a free page. -/
theorem slabAllocPool_free (hi : i < nr)
    (he : slabAllocPool ⟨sections ps, nr, pools⟩ i = .ok (o, k))
    (hx : (⟨o, (pools i).size⟩ : Extent).Has x) : Free ⟨sections ps, nr, pools⟩ x := by
  have hpool := h.poolOk i hi
  cases hcache : (pools i).cache with
  | cons c rest =>
    rw [slabAllocPool, hcache] at he
    cases he
    refine .inr ⟨i, hi, c.obj, .inr ?_, hx⟩
    simp [hcache]
  | nil =>
    cases hpart : (pools i).partials with
    | cons s rest =>
      have hrun : slabAllocPool ⟨sections ps, nr, pools⟩ i =
          reallocLoop i 2 ⟨sections ps, nr, pools⟩ := by
        rw [slabAllocPool, hcache]
      rw [hrun, reallocLoop_take h hi hpart 1] at he
      cases he
      have hs : s ∈ (pools i).slabs := by simp [slabs_eq_cons hpart]
      have hroom := hpool.room s (by simp [hpart])
      have htaken := (hpool.slabs s hs).taken
      exact .inr ⟨i, hi, _, .inl ⟨s, hs, s.active, by omega, le_refl _, rfl⟩, hx⟩
    | nil =>
      rcases slabAllocPool_refill h hi hcache hpart with
        ⟨hfail, -⟩ | ⟨pos, slab, hfree, hpage, hnew, hrun, -⟩
      · rw [hfail] at he
        cases he
      · rw [hrun] at he
        cases he
        have hlt := FreeArea.lt_limit hfree
        obtain ⟨hlo, hhi⟩ := hnew.ok.obj_bounds (j := slab.active) (by
          have hactive := hnew.active
          have hpos := hnew.pos
          omega)
        refine .inl ⟨pos, by change pos < limit ps; omega,
          hfree.1 pos (le_refl _) (Nat.lt_succ_self pos), ?_⟩
        simp only [sectPage, Extent.Has, ← hpage] at hx ⊢
        omega

theorem slabAllocPool_marked (hi : i < nr)
    (he : slabAllocPool ⟨sections ps, nr, pools⟩ i = .ok (o, k))
    (hx : (⟨o, (pools i).size⟩ : Extent).Has x) : Marked k x := by
  rcases slabAllocPool_spec h hi with
    ⟨hfail, -⟩ | ⟨y, ps', blocks', pools', hrun, hinv, -, -, hsize⟩
  · rw [hfail] at he
    cases he
  · rw [hrun] at he
    cases he
    have hin : o ∈ Function.update used i (o :: used i) i := by
      rw [Function.update_self]
      exact List.mem_cons_self
    refine .inr ⟨i, hi, o, ⟨hinv.objs i hi o (List.mem_append_right _ hin), ?_⟩, by rwa [hsize]⟩
    intro hcache
    exact (List.nodup_append.mp (hinv.distinct i hi)).2.2 _ hcache _ hin rfl

theorem grant_marks {count pos : Nat} (hcount : 1 ≤ count)
    (hfree : FreeArea ps.bitmap (bitmapSize ps.nrPages) count pos)
    (hx : (⟨pageVa (sections ps) pos, 4096 * count⟩ : Extent).Has x) :
    Free ⟨sections ps, nr, pools⟩ x ∧ Marked ⟨sections (grant ps pos count), nr, pools⟩ x := by
  have hlt := FreeArea.lt_limit hfree
  obtain ⟨p, hlo, hhi, hpx⟩ :
      ∃ p, pos ≤ p ∧ p < pos + count ∧ (sectPage (sections ps) p).Has x := by
    simp only [Extent.Has, h.placed.pageVa_eq (show pos < limit ps by omega)] at hx
    refine ⟨pos + (x - (ps.paBase + 4096 * pos + kernelAddrMask)) / 4096, by omega, by omega, ?_⟩
    simp only [sectPage, Extent.Has]
    rw [h.placed.pageVa_eq (by omega)]
    omega
  have hclear := hfree.1 p hlo hhi
  have hone : FreeArea ps.bitmap (bitmapSize ps.nrPages) 1 p := by
    refine ⟨?_, by have := hfree.2; omega⟩
    intro q hq hq'
    obtain rfl : q = p := by omega
    exact hclear
  refine ⟨.inl ⟨p, by change p < limit ps; omega, hclear, hpx⟩, .inl ⟨p, ?_, ?_, hpx, ?_⟩⟩
  · change p < limit (grant ps pos count)
    rw [PageRuns.limit_grant]
    omega
  · change getBit (bitmapSetBits ps.bitmap pos count) p = true
    rw [getBit_setBits, decide_eq_true ⟨hlo, hhi⟩]
    rfl
  · intro i hi s hs
    exact h.page_ne_fresh (le_refl 1) hone hi hs

end

/-- **A block of at most 2 MiB** consists of bytes that were free and are marked. -/
theorem kalloc_marks (h : LiveInv ps blocks pools live) (hn : n ≤ 2097152) {va : Nat}
    (he : kalloc ⟨sections ps, 9, pools⟩ n = .ok (some va, k)) (hx : (⟨va, n⟩ : Extent).Has x) :
    Free ⟨sections ps, 9, pools⟩ x ∧ Marked k x := by
  by_cases hsmall : n ≤ 512
  · obtain ⟨hlo, hhi, hfit⟩ := poolIndex_spec hsmall
    rw [kalloc_pool h hsmall] at he
    obtain ⟨⟨o, k'⟩, hrun, hret⟩ := ok_of_bind he
    cases hret
    have hox : (⟨o, (pools (poolIndex n)).size⟩ : Extent).Has x := by
      rw [h.sizes _ hlo hhi]
      simp only [Extent.Has] at hx ⊢
      omega
    exact ⟨slabAllocPool_free h.heap hhi hrun hox, slabAllocPool_marked h.heap hhi hrun hox⟩
  · have hlim := h.heap.placed.small
    have hcount : 1 ≤ pagesOf n ∧ pagesOf n ≤ 512 := by
      unfold pagesOf
      omega
    rw [kalloc, if_neg hsmall, kallocPages_eq hn] at he
    obtain ⟨⟨r, secs⟩, hrun, hret⟩ := ok_of_bind he
    rcases pageAllocn_cases ps hcount.1 hcount.2 (by omega) with
      ⟨hnone, -⟩ | ⟨pos, ⟨hfree, -⟩, hgrant⟩
    · rw [hnone] at hrun
      cases hrun
      cases hret
    · have hlt := FreeArea.lt_limit hfree
      rw [h.heap.placed.pa_eq (by omega)] at hgrant
      rw [hgrant] at hrun
      cases hrun
      cases hret
      refine grant_marks h.heap hcount.1 hfree ?_
      simp only [Extent.Has, pageVa, PageRuns.sect_sections] at hx ⊢
      unfold pagesOf
      omega

/-! ## Other requests -/

/-- What `page_allocn` needs to find for it to return a block: `count` free pages or, where
`count` is not positive, a first free page with `-count` pages before it. -/
def Serves (ps : PageSection) (count : Int) : Prop :=
  count ≤ 512 ∧
    if 1 ≤ count then ∃ p, FreeArea ps.bitmap (bitmapSize ps.nrPages) count.toNat p
    else ∃ p < limit ps, getBit ps.bitmap p = false ∧ (∀ q < p, getBit ps.bitmap q = true) ∧
      -count ≤ p

theorem exists_first_clear {b : BitmapT} (h : ¬ ∀ q < n, getBit b q = true) :
    ∃ p < n, getBit b p = false ∧ ∀ q < p, getBit b q = true := by
  have hex : ∃ p, p < n ∧ getBit b p = false := by simpa using h
  refine ⟨Nat.find hex, (Nat.find_spec hex).1, (Nat.find_spec hex).2, ?_⟩
  intro q hq
  have hmin := Nat.find_min hex hq
  have hlt := (Nat.find_spec hex).1
  simpa [show q < n by omega] using hmin

theorem serves_neg_iff {c : Nat} : Serves ps (-c) ↔ ∃ p < limit ps, getBit ps.bitmap p = false ∧
    (∀ q < p, getBit ps.bitmap q = true) ∧ c ≤ p := by
  unfold Serves
  rw [if_neg (by omega)]
  constructor
  · rintro ⟨-, p, hp, hclear, hset, hle⟩
    exact ⟨p, hp, hclear, hset, by omega⟩
  · rintro ⟨p, hp, hclear, hset, hle⟩
    exact ⟨by omega, p, hp, hclear, hset, by omega⟩

theorem pageAllocn_not_found (hcount : count ≤ 512)
    (hfind : bitmapFindNext0Area ps.bitmap (bitmapSize ps.nrPages) 0 count = -1) :
    pageAllocn (sections ps) count = .ok (none, sections ps) := by
  have hsect : pageAllocnSect ps count = (none, ps) := by simp [pageAllocnSect, hfind]
  unfold pageAllocn sections
  rw [if_neg (by omega)]
  simp only [pageAllocnLoop.eq_2, hsect, pageAllocnLoop_empty, Option.map_none]

/-- The bit of no page is set, only the descriptor is written. -/
theorem pageAllocn_neg_found (hp : Placed ps) {c p : Nat} (hlt : p < limit ps)
    (hfind : bitmapFindNext0Area ps.bitmap (bitmapSize ps.nrPages) 0 (-c) = p) :
    ∃ ps', pageAllocn (sections ps) (-c) = .ok (some (pageVa (sections ps) p), sections ps') ∧
      ps'.bitmap = ps.bitmap ∧ ps'.nrPages = ps.nrPages ∧ ps'.paBase = ps.paBase := by
  have hsect : pageAllocnSect ps (-c) = (some ⟨ps.paBase + 4096 * p, -c⟩, { ps with
      pages := Function.update ps.pages p ⟨ps.paBase + 4096 * p, -c⟩
      free := i32 (ps.free - -(c : Int)) }) := by
    unfold pageAllocnSect
    simp only [hfind, hp.pa_eq hlt, Int.toNat_natCast, Int.toNat_neg_natCast, bitmapSetBits]
    rw [if_neg (by omega)]
  refine ⟨{ ps with
    pages := Function.update ps.pages p ⟨ps.paBase + 4096 * p, -c⟩
    free := i32 (ps.free - -(c : Int)) }, ?_, rfl, rfl, rfl⟩
  unfold pageAllocn sections
  rw [if_neg (by omega)]
  simp only [pageAllocnLoop.eq_2, hsect, Option.map_some]
  rfl

/-- **Asked for no pages**, `page_allocn` returns the first free page, if there is one far
enough behind the start, and marks nothing. -/
theorem pageAllocn_nonpos (hp : Placed ps) (hcount : count ≤ 0) (hint : -2147483648 ≤ count) :
    (pageAllocn (sections ps) count = .ok (none, sections ps) ∧ ¬ Serves ps count) ∨
    ∃ p < limit ps, ∃ ps', pageAllocn (sections ps) count =
        .ok (some (pageVa (sections ps) p), sections ps') ∧ Serves ps count ∧
      ps'.bitmap = ps.bitmap ∧ ps'.nrPages = ps.nrPages ∧ ps'.paBase = ps.paBase := by
  have hlim : limit ps = bitmapSize ps.nrPages / 8 * 64 := by
    unfold limit
    rfl
  have hsmall := hp.small
  obtain ⟨c, rfl⟩ : ∃ c : Nat, count = -c := ⟨count.natAbs, by omega⟩
  rw [serves_neg_iff]
  by_cases hfull : ∀ q < limit ps, getBit ps.bitmap q = true
  · refine .inl ⟨pageAllocn_not_found (by omega) (bitmapFindNext0Area_full (by rwa [← hlim]) _), ?_⟩
    rintro ⟨p, hlt, hclear, -⟩
    rw [hfull p hlt] at hclear
    cases hclear
  · obtain ⟨p, hlt, hclear, hset⟩ := exists_first_clear hfull
    have hwords : bitmapSize ps.nrPages / 8 * 64 < 2147483648 := by omega
    have hfind := bitmapFindNext0Area_nonpos hset hclear (c := c) hwords (by omega) (by omega)
    split at hfind
    · rename_i hc
      obtain ⟨ps', hrun, hsame⟩ := pageAllocn_neg_found hp hlt hfind
      exact .inr ⟨p, hlt, ps', hrun, ⟨p, hlt, hclear, hset, hc⟩, hsame⟩
    · rename_i hc
      refine .inl ⟨pageAllocn_not_found (by omega) hfind, ?_⟩
      rintro ⟨q, -, hclear', hset', hcq⟩
      have hpq : ¬ p < q := fun hpq => by
        rw [hset' p hpq] at hclear
        cases hclear
      omega

theorem pageAllocn_int (hp : Placed ps) (hint : -2147483648 ≤ count) :
    pageAllocn (sections ps) count = .error .exit ∧ ¬ Serves ps count ∨
    pageAllocn (sections ps) count = .ok (none, sections ps) ∧ ¬ Serves ps count ∨
    Serves ps count ∧ ∃ p < limit ps, ∃ secs,
      pageAllocn (sections ps) count = .ok (some (pageVa (sections ps) p), secs) := by
  by_cases hexit : 512 < count
  · exact .inl ⟨if_pos hexit, fun hs => absurd hs.1 (by omega)⟩
  · by_cases hpos : 1 ≤ count
    · obtain ⟨c, rfl⟩ : ∃ c : Nat, count = c := ⟨count.toNat, by omega⟩
      have hsmall := hp.small
      have hserves : Serves ps c ↔ ∃ p, FreeArea ps.bitmap (bitmapSize ps.nrPages) c p := by
        unfold Serves
        rw [if_pos hpos, Int.toNat_natCast]
        exact and_iff_right (by omega)
      have hone : 1 ≤ c := by omega
      rcases pageAllocn_cases ps hone (by omega) (by omega) with
        ⟨hnone, hfree⟩ | ⟨p, hfree, hgrant⟩
      · exact .inr (.inl ⟨hnone, by rw [hserves]; exact fun ⟨p, h⟩ => hfree p h⟩)
      · have hlt := FreeArea.lt_limit hfree.1
        rw [hp.pa_eq (by omega)] at hgrant
        exact .inr (.inr ⟨hserves.2 ⟨p, hfree.1⟩, p, by omega, _, hgrant⟩)
    · rcases pageAllocn_nonpos hp (show count ≤ 0 by omega) hint with
        hnone | ⟨p, hlt, ps', hsome, hserves, -⟩
      · exact .inr (.inl hnone)
      · exact .inr (.inr ⟨hserves, p, hlt, _, hsome⟩)

theorem kallocPages_int (n : Nat) : -2147483648 ≤ kallocPages n := by
  unfold kallocPages i32
  omega

/-- A request that is larger than 2 MiB and asks for 512 pages or less is one of terabytes. -/
theorem kallocPages_huge (hn : 2097152 < n) (hword : n < 2 ^ 64) (hpages : kallocPages n ≤ 512) :
    2 ^ 42 ≤ n := by
  have halign : alignUp n 4096 = (n + 4095) % 2 ^ 64 / 4096 * 4096 := alignUp_mod n 12
  unfold kallocPages at hpages
  rw [halign] at hpages
  unfold i32 at hpages
  omega

/-- The size is one for which `kalloc` counts its pages rightly, or returns no block. -/
def SoundSize (ps : PageSection) (n : Nat) : Prop :=
  n ≤ 2097152 ∨ ¬ Serves ps (kallocPages n)

/-- A block that `kalloc(n)` returns consists of `n` bytes that were free before and are
marked after it. -/
def BlockRight (k : Kmem) (n : Nat) : Prop :=
  ∀ va k', kalloc k n = .ok (some va, k') → ∀ x, (⟨va, n⟩ : Extent).Has x → Free k x ∧ Marked k' x

theorem kalloc_large (h : LiveInv ps blocks pools live) (hn : 2097152 < n) :
    (∀ r, kalloc ⟨sections ps, 9, pools⟩ n = .ok r → r = (none, ⟨sections ps, 9, pools⟩)) ∧
        ¬ Serves ps (kallocPages n) ∨
      Serves ps (kallocPages n) ∧ ∃ p < limit ps, ∃ k,
        kalloc ⟨sections ps, 9, pools⟩ n = .ok (some (pageVa (sections ps) p), k) := by
  have hkalloc : kalloc ⟨sections ps, 9, pools⟩ n =
      (pageAllocn (sections ps) (kallocPages n) >>= fun r => .ok (r.1, ⟨r.2, 9, pools⟩)) := by
    rw [kalloc, if_neg (by omega)]
  rcases pageAllocn_int h.heap.placed (kallocPages_int n) with
    ⟨hexit, hno⟩ | ⟨hnone, hno⟩ | ⟨hserves, p, hp, secs, hsome⟩
  · refine .inl ⟨fun r hr => ?_, hno⟩
    rw [hkalloc, hexit] at hr
    cases hr
  · refine .inl ⟨fun r hr => ?_, hno⟩
    rw [hkalloc, hnone] at hr
    cases hr
    rfl
  · refine .inr ⟨hserves, p, hp, ⟨secs, 9, pools⟩, ?_⟩
    rw [hkalloc, hsome]
    rfl

theorem blockRight_iff (h : LiveInv ps blocks pools live) (hword : n < 2 ^ 64) :
    BlockRight ⟨sections ps, 9, pools⟩ n ↔ SoundSize ps n := by
  by_cases hn : n ≤ 2097152
  · exact iff_of_true (fun va k he x hx => kalloc_marks h hn he hx) (.inl hn)
  · rcases kalloc_large h (show 2097152 < n by omega) with
      ⟨hnone, hno⟩ | ⟨hserves, p, hp, k, hsome⟩
    · refine iff_of_true (fun va k he => ?_) (.inr hno)
      cases hnone _ he
    · refine iff_of_false (fun hright => ?_) (fun hsound => hsound.elim hn (· hserves))
      -- the section ends long before a block of this size
      have hhuge := kallocPages_huge (by omega) hword hserves.1
      have hsmall := h.heap.placed.small
      obtain ⟨hfree, -⟩ := hright _ k hsome (pageVa (sections ps) p + 4096 * limit ps)
        ⟨by simp, by simp only; omega⟩
      obtain ⟨q, hq, hqx⟩ := hfree.inSection h.heap
      simp only [sectPage, Extent.Has, h.heap.placed.pageVa_eq hp, h.heap.placed.pageVa_eq hq]
        at hqx
      omega

/-! ## Runs -/

/-- Requests of sound sizes and frees of live blocks. -/
def kokSound (s : KSys) : KOp → Prop
  | .kalloc n => SoundSize (sect s.heap.secs) n
  | .kfree addr => ∃ b ∈ s.live, b.addr = addr

theorem kstep_sound_inv (s : KSys) (op : KOp) (s' : KSys) (hs : KInv s) (hop : kokSound s op)
    (h : kstep s op = some s') : KInv s' := by
  cases op with
  | kalloc n =>
    by_cases hn : n ≤ 2097152
    · exact kstep_kalloc_inv hs hn h
    · obtain ⟨heap, live⟩ := s
      obtain ⟨ps, blocks, pools, rfl, hinv⟩ := hs
      rcases kalloc_large hinv (show 2097152 < n by omega) with ⟨hnone, -⟩ | ⟨hserves, -⟩
      · simp only [kstep] at h
        cases he : kalloc ⟨sections ps, 9, pools⟩ n with
        | error f =>
          rw [he] at h
          cases h
        | ok r =>
          obtain rfl := hnone r he
          rw [he] at h
          cases h
          exact ⟨ps, blocks, pools, rfl, hinv⟩
      · exact absurd hserves (hop.resolve_left hn)
  | kfree addr =>
    obtain ⟨b, hb, rfl⟩ := hop
    exact kstep_kfree_inv hs hb h

theorem le_of_sound (h : LiveInv ps blocks pools live) (hsound : SoundSize ps n) {va : Nat}
    (he : kalloc ⟨sections ps, 9, pools⟩ n = .ok (some va, k)) : n ≤ 2097152 := by
  by_contra hn
  rcases kalloc_large h (show 2097152 < n by omega) with ⟨hnone, -⟩ | ⟨hserves, -⟩
  · cases hnone _ he
  · exact (hsound.resolve_left hn) hserves

/-- **The blocks of `kalloc`.** In every state of every run of sound requests and of frees of
live blocks, a request of any size gets bytes that were free and are marked exactly if its
size is sound: at most 2 MiB, or `page_allocn` finds nothing for the number of pages that is
left of it as an `int`. Two blocks of sound sizes returned one after the other have no byte
in common. -/
theorem kalloc_block_iff (words : BitmapT) (descs : Nat → Page) (base pages : Nat)
    (hbase : base % 4096 = 0) (hpages : 0 < pages) (hmanaged : managedPages pages < 524288)
    (htop : base + 4096 * pages + 262144 ≤ 2 ^ 48) (hdescs : ∀ i < pages, descs i = ⟨0, 0⟩)
    (hfit : DescsFit pages) {secs : List PageSection}
    (hinit : pageInit words descs base pages = .ok secs) {heap : Kmem}
    (hslab : initSlab secs = .ok (some heap)) {s : KSys}
    (hrun : Steps kstep kokSound ⟨heap, []⟩ s) :
    (∀ n < 2 ^ 64, BlockRight s.heap n ↔ SoundSize (sect s.heap.secs) n) ∧
    ∀ n m va va' k k', SoundSize (sect s.heap.secs) n → kalloc s.heap n = .ok (some va, k) →
      SoundSize (sect k.secs) m → kalloc k m = .ok (some va', k') →
      ∀ x, (⟨va, n⟩ : Extent).Has x → ¬ (⟨va', m⟩ : Extent).Has x := by
  have hstart := initSlab_kinv hbase hpages hmanaged htop hdescs hfit hinit hslab
  obtain ⟨heap, live⟩ := s
  have hkinv : KInv ⟨heap, live⟩ := hrun.invariant hstart kstep_sound_inv
  obtain ⟨ps, blocks, pools, rfl, hinv⟩ := hkinv
  refine ⟨fun n hn => blockRight_iff hinv hn, ?_⟩
  intro n m va va' k k' hsn hn hsm hm x hx hx'
  have hstep : kstep ⟨⟨sections ps, 9, pools⟩, live⟩ (.kalloc n) =
      some ⟨k, ⟨va, n⟩ :: live⟩ := by
    simp only [kstep, hn]
  obtain ⟨ps1, blocks1, pools1, rfl, hinv1⟩ :=
    kstep_sound_inv _ (.kalloc n) _ ⟨ps, blocks, pools, rfl, hinv⟩ hsn hstep
  have hmarked := (kalloc_marks hinv (le_of_sound hinv hsn hn) hn hx).2
  have hfree := (kalloc_marks hinv1 (le_of_sound hinv1 hsm hm) hm hx').1
  exact not_marked_of_free hinv1.heap hfree hmarked

theorem kalloc_block_small : ∃ heap, initSlab (sections PageRuns.smallSection) = .ok (some heap) ∧
    BlockRight heap 5000 := by
  have hsome : smallHeap.isSome = true := by decide +kernel
  obtain ⟨heap, hheap⟩ := Option.isSome_iff_exists.mp hsome
  have hslab := initSlab_of_smallHeap hheap
  exact ⟨heap, hslab, ((kalloc_block_iff (fun _ => 0#64) PageRuns.zeroDescs 0x40000000 64
    (by decide) (by decide) (by decide) (by decide) (fun _ _ => rfl) (by decide)
    PageRuns.pageInit_small hslab .refl).1 5000 (by decide)).2 (.inl (by decide))⟩

/-- `kalloc(2^64 - 1)` returns the first free page and marks nothing, so that it returns the
same page a second time; for 2^44 + 4096 bytes it returns one page, and the next request gets
a page that lies among them. -/
theorem kalloc_returns_page_twice :
    (smallHeap.bind fun k => (kalloc k (2 ^ 64 - 1)).toOption.bind fun r =>
      (kalloc r.2 (2 ^ 64 - 1)).toOption.map fun r' => (r.1, r'.1)) =
        some (some 0xffff000040002000, some 0xffff000040002000) ∧
    (smallHeap.bind fun k => (kalloc k (2 ^ 44 + 4096)).toOption.bind fun r =>
      (kalloc r.2 4096).toOption.map fun r' => (r.1, r'.1)) =
        some (some 0xffff000040002000, some 0xffff000040003000) := by
  decide +kernel

end SpringOs.KallocSize
