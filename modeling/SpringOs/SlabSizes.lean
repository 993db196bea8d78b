import SpringOs.SlabPools

/-!
Pools of any object size. The layout of a slab and the check in `slab_free` use masks that fit
powers of two, so that for other sizes an object can lie where its own check refuses it.

* `firstObj`, **`slots`**: where the objects of a slab start and how many there are, counted from
  the start of the page; `caculateNrObject_ok` says that every slab is laid out so;
* `Inv`: what holds in every run, whatever sizes the pools have been created with;
* `freeChecks_eq`: for an object the assertions of `slab_free` come down to its alignment;
* `slab_free_sizes_iff`: so every object of a pool can be freed exactly for 50 of the sizes from
  1 to 2000.
-/

namespace SpringOs.SlabSizes
open Lib.Word Lib.Machine Bitmap Kernel PageAlloc PageRuns SlabAlloc Heap KmemRuns SlabPools
open Function (update update_self update_of_ne update_idem)

variable {n page j : Nat} {secs : List PageSection}

/-! ## The layout of a slab -/

/-- Where the first of `n` objects stands in the page. -/
def firstObj (size n : Nat) : Nat := maskUp (64 + 2 * n) size

/-- The largest number of objects up to `n` that fits. -/
def fitsFrom (size : Nat) : Nat → Nat
  | 0 => 0
  | n + 1 => if firstObj size (n + 1) + size * (n + 1) ≤ 4096 then n + 1 else fitsFrom size n

def slots (size : Nat) : Nat := fitsFrom size (4032 / size)

theorem fitsFrom_le (size n : Nat) : fitsFrom size n ≤ n := by
  induction n with
  | zero => exact le_rfl
  | succ n ih =>
    rw [fitsFrom]
    split
    · exact le_rfl
    · omega

variable {size : Nat}

theorem fitsFrom_fits (h : 0 < fitsFrom size n) :
    firstObj size (fitsFrom size n) + size * fitsFrom size n ≤ 4096 := by
  induction n with
  | zero => exact absurd h (Nat.lt_irrefl 0)
  | succ n ih =>
    rw [fitsFrom] at h ⊢
    split
    · assumption
    · rename_i hbig
      rw [if_neg hbig] at h
      exact ih h

theorem slots_le (size : Nat) : slots size ≤ 4032 :=
  (fitsFrom_le size _).trans (Nat.div_le_self 4032 size)

theorem two_mul_add_le (hlo : 1 ≤ size) (hhi : size ≤ 4032) (hn : size * n ≤ 4032) :
    2 * n + size ≤ 8065 := by
  rcases Nat.eq_or_lt_of_le hlo with rfl | htwo
  · omega
  · have := Nat.mul_le_mul_right n htwo
    omega

theorem alignUp_firstObj (haligned : page % 4096 = 0) (htop : page + 12288 ≤ 2 ^ 64)
    (hlo : 1 ≤ size) (hhi : size ≤ 4032) (hn : size * n ≤ 4032) :
    alignUp (page + (64 + 2 * n)) size = page + firstObj size n := by
  have hsmall := two_mul_add_le hlo hhi hn
  rw [alignUp_eq_maskUp hlo (by omega)]
  exact maskUp_add (k := 12) haligned hlo (by omega)

theorem firstObj_le (hlo : 1 ≤ size) (hhi : size ≤ 4032) (hn : size * n ≤ 4032) :
    firstObj size n ≤ 8128 := by
  have hsmall := two_mul_add_le hlo hhi hn
  have hle := maskUp_le (64 + 2 * n) size
  unfold firstObj
  omega

/-- The search of `caculate_nr_object` does not depend on the page. -/
theorem nrObjectLoop_eq (haligned : page % 4096 = 0) (htop : page + 12288 ≤ 2 ^ 64) (hlo : 1 ≤ size)
    (hhi : size ≤ 4032) (fuel n : Nat) (hfuel : n < fuel) (hn : size * n ≤ 4032) :
    nrObjectLoop (page + 4096) (page + 64) size fuel n = some (fitsFrom size n : Int) := by
  induction fuel generalizing n with
  | zero => exact absurd hfuel (Nat.not_lt_zero n)
  | succ fuel ih =>
    have hsmall := two_mul_add_le hlo hhi hn
    have hfirst := firstObj_le hlo hhi hn
    have hstart : u64 (((page + 64 : Nat) : Int) + 2 * n) = page + (64 + 2 * n) := by
      unfold u64
      omega
    have hend : u64 (((page + firstObj size n : Nat) : Int) + i32 ((n : Int) * size)) =
        page + (firstObj size n + size * n) := by
      rw [← Int.natCast_mul, Nat.mul_comm n size, i32_of_lt (by omega) (by omega)]
      unfold u64
      omega
    rw [nrObjectLoop]
    simp only [hstart, alignUp_firstObj haligned htop hlo hhi hn, hend]
    cases n with
    | zero =>
      -- without objects the free list alone has to fit
      have hle := maskUp_le (64 + 2 * 0) size
      rw [if_neg (by unfold firstObj; omega)]
      rfl
    | succ n =>
      rw [fitsFrom]
      by_cases hfit : firstObj size (n + 1) + size * (n + 1) ≤ 4096
      · rw [if_neg (by omega), if_pos hfit]
      · rw [if_pos (by omega), if_neg hfit, show ((n + 1 : Nat) : Int) - 1 = (n : Nat) by omega]
        rw [Nat.mul_succ] at hn
        exact ih n (by omega) (by omega)

theorem nrObjectLoop_le {pageEnd freelist fuel : Nat} {n r : Int}
    (h : nrObjectLoop pageEnd freelist size fuel n = some r) : r ≤ n := by
  induction fuel generalizing n with
  | zero => cases h
  | succ fuel ih =>
    rw [nrObjectLoop] at h
    split at h
    · have := ih h
      omega
    · cases h
      exact Int.le_refl _

theorem caculateNrObject_eq (haligned : page % 4096 = 0) (htop : page + 12288 ≤ 2 ^ 64)
    (hlo : 1 ≤ size) (hhi : size ≤ 4032) :
    caculateNrObject page (u64 (page + 64)) 0 size =
      if 0 < slots size then .ok (slots size) else .error (.assertion .caculateNrObject) := by
  have hloop := nrObjectLoop_eq haligned htop hlo hhi (4032 / size + 2) _ (by omega)
    (Nat.mul_div_le 4032 size)
  rw [caculateNrObject_loop (by omega), hloop, Option.elim_some, Int.toNat_natCast]
  exact if_congr Int.natCast_pos rfl rfl

/-- **The layout**: if objects of some size have been laid out in a page, then as many as `slots`
says. -/
theorem caculateNrObject_ok (haligned : page % 4096 = 0) (htop : page + 12288 ≤ 2 ^ 64)
    (h : caculateNrObject page (u64 (page + 64)) 0 size = .ok n) :
    1 ≤ size ∧ size ≤ 4032 ∧ n = slots size ∧ 0 < n := by
  by_cases hsize : 1 ≤ size ∧ size ≤ 4032
  · rw [caculateNrObject_eq haligned htop hsize.1 hsize.2] at h
    split at h
    · rename_i hpos
      cases h
      exact ⟨hsize.1, hsize.2, rfl, hpos⟩
    · cases h
  · -- not even one object: the search starts from 0
    have hzero : 4032 / size = 0 := by
      rw [Nat.div_eq_zero_iff]
      omega
    rw [caculateNrObject_loop (by omega), hzero] at h
    cases hloop : nrObjectLoop (page + 4096) (page + 64) size (0 + 2) (0 : Nat) with
    | none =>
      rw [hloop] at h
      cases h
    | some r =>
      have hle : ¬ r > 0 := Int.not_lt.2 (nrObjectLoop_le hloop)
      rw [hloop, Option.elim_some, if_neg hle] at h
      cases h

/-- A slab of pool `i` for objects of `size` bytes, of which `active` have been taken. -/
structure Laid (i size : Nat) (s : Slab) : Prop where
  aligned : s.page % 4096 = 0
  top : s.page + 12288 ≤ 2 ^ 64
  pool : s.pool = i
  magic : s.magic = slabMagic
  pos : 1 ≤ size
  small : size ≤ 4032
  count : s.nrObj = slots size
  some : 0 < s.nrObj
  taken : s.active + s.nrFree = s.nrObj
  freelist : s.freelist = (List.range s.nrObj).map (fun j : Nat => (j : Int))
  start : s.objStart = s.page + firstObj size s.nrObj

theorem freshSlab_laid (i : Nat) (haligned : page % 4096 = 0) (htop : page + 12288 ≤ 2 ^ 64)
    (h : caculateNrObject page (u64 (page + 64)) 0 size = .ok n) :
    Laid i size (freshSlab page i size n) := by
  obtain ⟨hlo, hhi, rfl, hpos⟩ := caculateNrObject_ok haligned htop h
  have hle := slots_le size
  have hfit : size * slots size ≤ 4032 :=
    (Nat.mul_le_mul_left size (fitsFrom_le size _)).trans (Nat.mul_div_le 4032 size)
  have hend : u64 ((u64 ((page : Int) + 64) : Nat) + 2 * (slots size : Int)) =
      page + (64 + 2 * slots size) := by
    unfold u64
    omega
  have hlist : (List.range (slots size)).map (fun j : Nat => i16 j) =
      (List.range (slots size)).map (fun j : Nat => (j : Int)) := by
    refine List.map_congr_left fun j hj => ?_
    have := List.mem_range.1 hj
    exact i16_of_lt (by omega) (by omega)
  unfold freshSlab
  rw [hend, hlist, alignUp_firstObj haligned htop hlo hhi hfit]
  exact ⟨haligned, htop, rfl, rfl, hlo, hhi, rfl, hpos, Nat.zero_add _, rfl, rfl⟩

variable {i size : Nat} {s : Slab}

theorem Laid.obj_bounds (h : Laid i size s) (hj : j < s.nrObj) :
    s.page + 64 ≤ s.objStart + size * j ∧ s.objStart + size * j + size ≤ s.page + 4096 := by
  have hfits : firstObj size s.nrObj + size * s.nrObj ≤ 4096 := by
    have hpos := h.some
    rw [h.count] at hpos ⊢
    exact fitsFrom_fits hpos
  have hlow : 64 + 2 * s.nrObj ≤ firstObj size s.nrObj := le_maskUp _ _
  have hmul : size * j + size ≤ size * s.nrObj := Nat.mul_le_mul_left size hj
  rw [h.start]
  omega

theorem Laid.advance (h : Laid i size s) (hfree : 0 < s.nrFree) : Laid i size (advance s) := by
  have htaken := h.taken
  refine ⟨h.aligned, h.top, h.pool, h.magic, h.pos, h.small, h.count, h.some, ?_, h.freelist,
    h.start⟩
  dsimp only [SlabAlloc.advance]
  omega

theorem Laid.isAligned_obj (h : Laid i size s) (hj : j < s.nrObj) :
    isAligned (s.objStart + size * j) size =
      decide ((firstObj size (slots size) + size * j) &&& (size - 1) = 0) := by
  obtain ⟨-, hhi⟩ := h.obj_bounds hj
  have htop := h.top
  have hpos := h.pos
  have hsmall := h.small
  rw [isAligned_land hpos (by omega) (by omega), h.start, h.count, Nat.add_assoc,
    land_add_mul (k := 12) h.aligned (by omega)]

/-! ## A pool -/

/-- The slabs of a pool are laid out for its objects, on pages of their own, and the freed
objects are objects. -/
structure PoolFits (i : Nat) (pool : SlabPool) : Prop where
  objSize : pool.objSize = pool.size
  order : pool.gfporder = 0
  slabs : ∀ s ∈ pool.slabs, Laid i pool.size s
  room : ∀ s ∈ pool.partials, 0 < s.nrFree
  pages : (pool.slabs.map Slab.page).Nodup
  cached : ∀ c ∈ pool.cache, IsObj pool c.obj

variable {pool : SlabPool}

theorem newPool_fits (i size : Nat) : PoolFits i (newPool size) :=
  ⟨rfl, rfl, List.forall_mem_nil _, List.forall_mem_nil _, List.nodup_nil, List.forall_mem_nil _⟩

theorem PoolFits.hit (h : PoolFits i pool) {c : SlabCache} {rest : List SlabCache}
    (hcache : pool.cache = c :: rest) : PoolFits i { pool with cache := rest } := by
  refine ⟨h.objSize, h.order, h.slabs, h.room, h.pages, fun c' hc' => h.cached c' ?_⟩
  rw [hcache]
  exact List.mem_cons_of_mem c hc'

theorem PoolFits.push (h : PoolFits i pool) {ptr : Nat} (hptr : IsObj pool ptr) (node : Nat) :
    PoolFits i { pool with cache := ⟨node, ptr⟩ :: pool.cache } :=
  ⟨h.objSize, h.order, h.slabs, h.room, h.pages, List.forall_mem_cons.2 ⟨hptr, h.cached⟩⟩

theorem PoolFits.add (h : PoolFits i pool) (hs : Laid i pool.size s) (hroom : 0 < s.nrFree)
    (hpage : ∀ t ∈ pool.slabs, t.page ≠ s.page) :
    PoolFits i { pool with partials := s :: pool.partials } := by
  refine ⟨h.objSize, h.order, List.forall_mem_cons.2 ⟨hs, h.slabs⟩,
    List.forall_mem_cons.2 ⟨hroom, h.room⟩, List.nodup_cons.2 ⟨fun hmem => ?_, h.pages⟩, ?_⟩
  · obtain ⟨t, ht, heq⟩ := List.mem_map.1 hmem
    exact hpage t ht heq
  · intro c hc
    obtain ⟨t, ht, j, hj, hobj⟩ := h.cached c hc
    exact ⟨t, List.mem_cons_of_mem s ht, j, hj, hobj⟩

theorem PoolFits.take (h : PoolFits i pool) {rest : List Slab}
    (hpart : pool.partials = s :: rest) : PoolFits i (takeObject pool [] s rest) := by
  have hslabs := slabs_eq_cons hpart
  have hfree := h.room s (by rw [hpart]; exact List.mem_cons_self)
  have hlaid := h.slabs s (by rw [hslabs]; exact List.mem_cons_self)
  have hkind := takeObject_kind pool [] s rest
  refine ⟨?_, (congrArg (fun t => t.2.2) hkind).trans h.order, ?_, ?_, ?_, ?_⟩
  · rw [takeObject_objSize, takeObject_size, h.objSize]
  · intro t ht
    rw [takeObject_size]
    rcases takeObject_mem.1 ht with rfl | ht
    · exact hlaid.advance hfree
    · exact h.slabs t (by rw [hslabs]; exact List.mem_cons_of_mem s ht)
  · have hrest : ∀ t ∈ rest, 0 < t.nrFree := fun t ht =>
      h.room t (by rw [hpart]; exact List.mem_cons_of_mem s ht)
    unfold takeObject
    dsimp only
    split
    · exact hrest
    · rename_i hmore
      exact List.forall_mem_cons.2 ⟨Nat.pos_of_ne_zero hmore, hrest⟩
  · rw [((takeObject_slabs pool s rest).map Slab.page).nodup_iff]
    have hpages := h.pages
    rw [hslabs] at hpages
    exact hpages
  · intro c hc
    rw [takeObject_cache] at hc
    exact (h.cached c hc).take hpart

/-! ## The heap -/

/-- The page is one of the section and not free. -/
def Backed (ps : PageSection) (page : Nat) : Prop :=
  ∃ pos, pos + 1 < limit ps ∧ getBit ps.bitmap pos = true ∧ page = pageVa (sections ps) pos

structure Inv (ps : PageSection) (k : Kmem) : Prop where
  secs : k.secs = sections ps
  placed : Placed ps
  two : 2 ≤ k.nrPools
  pools : ∀ i < k.nrPools, PoolFits i (k.pools i)
  backed : ∀ i < k.nrPools, ∀ s ∈ (k.pools i).slabs, Backed ps s.page
  apart : ∀ i < k.nrPools, ∀ j < k.nrPools, i ≠ j →
    ∀ s ∈ (k.pools i).slabs, ∀ t ∈ (k.pools j).slabs, s.page ≠ t.page

variable {ps : PageSection} {k k' : Kmem}

theorem Inv.setPool (h : Inv ps k) (hfits : PoolFits i pool)
    (hbacked : ∀ t ∈ pool.slabs, Backed ps t.page)
    (hapart : ∀ t ∈ pool.slabs, ∀ j < k.nrPools, j ≠ i → ∀ s ∈ (k.pools j).slabs,
      s.page ≠ t.page) :
    Inv ps { k with pools := update k.pools i pool } := by
  have hallBacked := forall_update (i := i)
    (P := fun _ pool => ∀ s ∈ pool.slabs, Backed ps s.page) h.backed hbacked
  exact ⟨h.secs, h.placed, h.two, forall_update h.pools hfits, hallBacked,
    apart_update h.apart hapart⟩

theorem Inv.samePages (h : Inv ps k) (hi : i < k.nrPools) (hfits : PoolFits i pool)
    (hpages : ∀ t ∈ pool.slabs, ∃ s ∈ (k.pools i).slabs, s.page = t.page) :
    Inv ps { k with pools := update k.pools i pool } := by
  refine h.setPool hfits (fun t ht => ?_) fun t ht j hj hne s hs => ?_
  · obtain ⟨s, hs, heq⟩ := hpages t ht
    rw [← heq]
    exact h.backed i hi s hs
  · obtain ⟨u, hu, heq⟩ := hpages t ht
    rw [← heq]
    exact h.apart j hj i hi hne s hs u hu

theorem Backed.grant (h : Backed ps page) (pos : Nat) : Backed (PageAlloc.grant ps pos 1) page := by
  obtain ⟨q, hlt, hbit, heq⟩ := h
  refine ⟨q, by rwa [limit_grant], ?_, heq⟩
  rw [PageAlloc.grant, getBit_setBits, hbit, Bool.or_true]

/-- `page_alloc` hands out a page that carries no slab, and keeps the others. -/
theorem Inv.pageAlloc (h : Inv ps k) (hpage : pageAlloc k.secs = .ok (some page, secs)) :
    ∃ ps', Inv ps' { k with secs := secs } ∧ ps'.paBase = ps.paBase ∧ Backed ps' page ∧
      page % 4096 = 0 ∧ page + 12288 ≤ 2 ^ 64 ∧
      ∀ i < k.nrPools, ∀ s ∈ (k.pools i).slabs, s.page ≠ page := by
  have hsmall := h.placed.small
  rw [h.secs] at hpage
  rcases pageAllocn_cases ps (le_refl 1) (by omega) (by omega) with
    ⟨hnone, -⟩ | ⟨pos, hfree, hsome⟩
  · cases hnone.symm.trans hpage
  · have hlt := FreeArea.lt_limit hfree.1
    rw [h.placed.pa_eq (by omega)] at hsome
    cases hsome.symm.trans hpage
    have hva := h.placed.pageVa_eq (show pos < limit ps by omega)
    refine ⟨PageAlloc.grant ps pos 1, ⟨rfl, h.placed.grant pos 1, h.two, h.pools,
      fun i hi s hs => (h.backed i hi s hs).grant pos, h.apart⟩, rfl, ?_, ?_, ?_, ?_⟩
    · refine ⟨pos, by rwa [limit_grant], ?_, rfl⟩
      rw [PageAlloc.grant, getBit_setBits, decide_eq_true ⟨le_rfl, Nat.lt_succ_self pos⟩,
        Bool.true_or]
    · change pageVa (sections ps) pos % 4096 = 0
      have hal := h.placed.aligned
      rw [hva]
      unfold kernelAddrMask
      omega
    · change pageVa (sections ps) pos + 12288 ≤ 2 ^ 64
      have htop := h.placed.top
      have hal := h.placed.aligned
      rw [hva]
      unfold kernelAddrMask
      omega
    · intro i hi s hs heq
      obtain ⟨q, hq, hbit, hpos⟩ := h.backed i hi s hs
      have hqp := pageVa_inj h.placed (p := q) (q := pos) (by omega) (by omega)
        (hpos.symm.trans heq)
      rw [hqp, hfree.1.1 pos le_rfl (Nat.lt_succ_self pos)] at hbit
      cases hbit

theorem isObj_update {pools : Nat → SlabPool} (h : ∀ y, IsObj (pools i) y → IsObj pool y)
    (j y : Nat) (hy : IsObj (pools j) y) : IsObj (update pools i pool j) y := by
  by_cases hji : j = i
  · subst hji
    rw [update_self]
    exact h y hy
  · rwa [update_of_ne hji]

section

variable (h : Inv ps k) (hi : i < k.nrPools)
include h hi

theorem Inv.takeHead {rest : List Slab} (hpart : (k.pools i).partials = s :: rest) :
    Inv ps { k with pools := update k.pools i (takeObject (k.pools i) [] s rest) } ∧
      IsObj (takeObject (k.pools i) [] s rest) (s.objStart + (k.pools i).size * s.active) ∧
      s.active < s.nrObj ∧
      u64 ((s.objStart : Int) + (k.pools i).size * (s.active : Int)) =
        s.objStart + (k.pools i).size * s.active := by
  have hfits := h.pools i hi
  have hs : s ∈ (k.pools i).slabs := by
    rw [slabs_eq_cons hpart]
    exact List.mem_cons_self
  have hlaid := hfits.slabs s hs
  have hfree := hfits.room s (by rw [hpart]; exact List.mem_cons_self)
  have htaken := hlaid.taken
  have hlt : s.active < s.nrObj := by omega
  refine ⟨h.samePages hi (hfits.take hpart) fun t ht => ?_, ?_, hlt, ?_⟩
  · rw [slabs_eq_cons hpart]
    rcases takeObject_mem.1 ht with rfl | ht
    · exact ⟨s, List.mem_cons_self, rfl⟩
    · exact ⟨t, List.mem_cons_of_mem s ht, rfl⟩
  · exact ⟨_, takeObject_mem.2 (.inl rfl), s.active, Nat.lt_succ_self _,
      by rw [takeObject_size]; rfl⟩
  · obtain ⟨-, hhi⟩ := hlaid.obj_bounds hlt
    have htop := hlaid.top
    rw [← Int.natCast_mul]
    unfold u64
    omega

theorem Inv.refill (hpage : PageAlloc.pageAlloc k.secs = .ok (some page, secs))
    (hn : caculateNrObject page (u64 (page + 64)) (k.pools i).gfporder (k.pools i).size = .ok n) :
    ∃ ps', ps'.paBase = ps.paBase ∧ Inv ps' { k with
      secs := secs
      pools := update k.pools i { k.pools i with
        partials := freshSlab page i (k.pools i).size n :: (k.pools i).partials } } := by
  have hfits := h.pools i hi
  obtain ⟨ps', hinv, hbase, hbacked, haligned, htop, hfresh⟩ := h.pageAlloc hpage
  rw [hfits.order] at hn
  have hlaid := freshSlab_laid i haligned htop hn
  refine ⟨ps', hbase, hinv.setPool (hfits.add hlaid (caculateNrObject_pos hn) (hfresh i hi)) ?_ ?_⟩
  · exact List.forall_mem_cons.2 ⟨hbacked, hinv.backed i hi⟩
  · exact List.forall_mem_cons.2 ⟨fun j hj _ => hfresh j hj,
      fun t ht j hj hne u hu => h.apart j hj i hi hne u hu t ht⟩

/-- `Taken`, in a run: a freed object is returned, or the next object of a slab at the head of the
list, after a refill if the list was empty. -/
theorem Inv.taken_cases {x : Nat} (ht : Taken k i x k') :
    (∃ c rest, (k.pools i).cache = c :: rest ∧ x = c.obj ∧
      k' = { k with pools := update k.pools i { k.pools i with cache := rest } }) ∨
    (k.pools i).cache = [] ∧ ∃ ps' kh s rest, Inv ps' kh ∧ ps'.paBase = ps.paBase ∧
      kh.nrPools = k.nrPools ∧ (kh.pools i).cache = [] ∧ (kh.pools i).partials = s :: rest ∧
      (∀ j y, IsObj (k.pools j) y → IsObj (kh.pools j) y) ∧
      x = s.objStart + (kh.pools i).size * s.active ∧
      k' = { kh with pools := update kh.pools i (takeObject (kh.pools i) [] s rest) } := by
  have hfits := h.pools i hi
  cases ht with
  | @hit c rest hcache => exact .inl ⟨c, rest, hcache, rfl, rfl⟩
  | @take before after s objIndex hcache hsplit hindex =>
    cases hpart : (k.pools i).partials with
    | nil =>
      rw [hpart] at hsplit
      cases hsplit
    | cons s' rest =>
      have hfree := hfits.room s' (by rw [hpart]; exact List.mem_cons_self)
      rw [hpart, splitFree, if_pos hfree] at hsplit
      cases hsplit
      obtain ⟨-, -, hlt, hx⟩ := h.takeHead hi hpart
      have hlaid := hfits.slabs s (by rw [slabs_eq_cons hpart]; exact List.mem_cons_self)
      rw [hlaid.freelist, List.getElem?_map, List.getElem?_range hlt] at hindex
      cases hindex
      exact .inr ⟨hcache, ps, k, s, _, h, rfl, rfl, hcache, hpart, fun _ _ hy => hy, hx, rfl⟩
  | @refill page n secs s hcache hpart hpage hn hs =>
    obtain ⟨ps', hbase, hinv⟩ := h.refill hi hpage hn
    rw [hpart, ← hs] at hinv
    have hhead : (update k.pools i { k.pools i with partials := [s] } i).partials =
        s :: [] := by rw [update_self]
    obtain ⟨-, -, -, hx⟩ := hinv.takeHead hi hhead
    have hactive : s.active = 0 := by rw [hs, freshSlab]
    refine .inr ⟨hcache, ps', _, s, [], hinv, hbase, rfl, ?_, hhead, ?_, ?_, ?_⟩
    · dsimp only
      rw [update_self, hcache]
    · refine isObj_update fun y hy => ?_
      obtain ⟨t, ht, j, hj, heq⟩ := hy
      rw [SlabPool.slabs, hpart] at ht
      exact ⟨t, List.mem_cons_of_mem s ht, j, hj, heq⟩
    · rw [← hx, hactive, Int.natCast_zero, Int.mul_zero, Int.add_zero]
    · simp only [update_self, update_idem]

/-- The invariant is kept, what is returned is an object, and what was one is one still. -/
theorem Inv.taken {x : Nat} (ht : Taken k i x k') :
    ∃ ps', Inv ps' k' ∧ ps'.paBase = ps.paBase ∧ IsObj (k'.pools i) x ∧
      ∀ j y, IsObj (k.pools j) y → IsObj (k'.pools j) y := by
  have hfits := h.pools i hi
  rcases h.taken_cases hi ht with ⟨c, rest, hcache, rfl, rfl⟩ |
    ⟨-, ps', kh, s, rest, hinv, hbase, hnr, -, hpart, hobjs, rfl, rfl⟩
  · refine ⟨ps, h.samePages hi (hfits.hit hcache) fun t ht => ⟨t, ht, rfl⟩, rfl, ?_,
      isObj_update fun y hy => hy⟩
    dsimp only
    rw [update_self]
    exact hfits.cached c (by rw [hcache]; exact List.mem_cons_self)
  · obtain ⟨hinv', hobj, -, -⟩ := hinv.takeHead (hnr ▸ hi) hpart
    refine ⟨ps', hinv', hbase, ?_, fun j y hy => isObj_update ?_ j y (hobjs j y hy)⟩
    · dsimp only
      rw [update_self]
      exact hobj
    · exact fun z hz => hz.take hpart

/-! ## `slab_free` -/

theorem Inv.headerAt_eq (hs : s ∈ (k.pools i).slabs) : headerAt k s.page = some s := by
  unfold headerAt
  cases hfind : ((List.range k.nrPools).flatMap fun i => (k.pools i).slabs).find?
      (fun t => t.page = s.page) with
  | none =>
    have hall := List.find?_eq_none.1 hfind s
      (List.mem_flatMap.2 ⟨i, List.mem_range.2 hi, hs⟩)
    exact absurd (decide_eq_true rfl) hall
  | some t =>
    obtain ⟨j, hj, ht⟩ := List.mem_flatMap.1 (List.mem_of_find?_eq_some hfind)
    have hfound := List.find?_some hfind
    have hpage : t.page = s.page := of_decide_eq_true hfound
    have hji : j = i := by
      by_contra hne
      exact h.apart j (List.mem_range.1 hj) i hi hne t ht s hs hpage
    subst hji
    rw [List.inj_on_of_nodup_map (h.pools j hi).pages ht hs hpage]

/-- **The assertions of `slab_free`**, for an object: only its alignment can fail. -/
theorem Inv.freeChecks_eq (hs : s ∈ (k.pools i).slabs) (hj : j < s.active) :
    freeChecks k (s.objStart + (k.pools i).size * j) =
      if (firstObj (k.pools i).size (slots (k.pools i).size) + (k.pools i).size * j) &&&
          ((k.pools i).size - 1) = 0
      then .ok s else .error (.assertion .slabFree) := by
  have hfits := h.pools i hi
  have hlaid := hfits.slabs s hs
  have htaken := hlaid.taken
  have haligned := hlaid.aligned
  have htop := hlaid.top
  have hlt : j < s.nrObj := by omega
  obtain ⟨hlow, hhigh⟩ := hlaid.obj_bounds hlt
  have hpos := hlaid.pos
  have hdown : alignDown (s.objStart + (k.pools i).size * j) 4096 = s.page := by
    rw [alignDown_page (by omega)]
    omega
  have hmask := hlaid.isAligned_obj hlt
  rw [freeChecks, hdown, h.headerAt_eq hi hs]
  dsimp only
  rw [if_neg (not_not.2 hlaid.magic), if_neg (not_not.2 (Nat.le_add_right _ _)),
    if_neg (not_not.2 (by omega)), hlaid.pool, hfits.objSize, hmask]
  simp only [decide_eq_false_iff_not, ite_not]

end

/-! ## Runs -/

theorem Inv.addPool (h : Inv ps k) (size : Nat) :
    Inv ps { k with
      nrPools := k.nrPools + 1
      pools := update k.pools k.nrPools (newPool size) } := by
  have hold : ∀ j < k.nrPools + 1, ∀ s ∈ (update k.pools k.nrPools (newPool size) j).slabs,
      j < k.nrPools ∧ s ∈ (k.pools j).slabs := by
    intro j hj s hs
    by_cases hlast : j = k.nrPools
    · rw [hlast, update_self] at hs
      cases hs
    · rw [update_of_ne hlast] at hs
      exact ⟨by omega, hs⟩
  refine ⟨h.secs, h.placed, h.two.trans (Nat.le_succ _), fun j hj => ?_, fun j hj s hs => ?_,
    fun j hj l hl hne s hs t ht => ?_⟩
  · dsimp only
    by_cases hlast : j = k.nrPools
    · rw [hlast, update_self]
      exact newPool_fits k.nrPools size
    · rw [update_of_ne hlast]
      exact h.pools j (Nat.lt_of_le_of_ne (Nat.le_of_lt_succ hj) hlast)
  · obtain ⟨hj, hs⟩ := hold j hj s hs
    exact h.backed j hj s hs
  · obtain ⟨hj, hs⟩ := hold j hj s hs
    obtain ⟨hl, ht⟩ := hold l hl t ht
    exact h.apart j hj l hl hne s hs t ht

def KeepsObjs (k k' : Kmem) : Prop :=
  ∀ j < k.nrPools, ∀ y, IsObj (k.pools j) y → IsObj (k'.pools j) y

theorem Inv.create (h : Inv ps k) {size : Nat} (hk : slabPoolCreate k size = .ok (some k')) :
    (∃ ps', Inv ps' k') ∧ KeepsObjs k k' := by
  obtain ⟨x, k1, htake, -, rfl⟩ := slabPoolCreate_cases hk
  obtain ⟨ps', hinv, -, -, hobj⟩ := h.taken (Nat.lt_of_lt_of_le Nat.zero_lt_two h.two) htake
  refine ⟨⟨ps', hinv.addPool size⟩, fun j hj y hy => ?_⟩
  dsimp only
  rw [update_of_ne (by rw [htake.nrPools]; omega)]
  exact hobj j y hy

theorem Inv.free (h : Inv ps k) {ptr node : Nat} {slab : Slab} {k1 : Kmem} (hi : i < k.nrPools)
    (hptr : IsObj (k.pools i) ptr) (hcheck : freeChecks k ptr = .ok slab)
    (htake : Taken k 1 node k1) :
    (∃ ps', Inv ps' (pushCache k1 slab.pool node ptr)) ∧
      KeepsObjs k (pushCache k1 slab.pool node ptr) := by
  obtain ⟨ps', hinv, -, -, hobj⟩ := h.taken (Nat.lt_of_lt_of_le Nat.one_lt_two h.two) htake
  have hpool : slab.pool = i := by
    obtain ⟨s, hs, j, hj, rfl⟩ := hptr
    rw [h.freeChecks_eq hi hs hj] at hcheck
    split at hcheck
    · cases hcheck
      exact ((h.pools i hi).slabs slab hs).pool
    · cases hcheck
  have hi' : i < k1.nrPools := by rwa [htake.nrPools]
  rw [hpool]
  refine ⟨⟨ps', hinv.samePages hi' ((hinv.pools i hi').push (hobj i ptr hptr) node)
    fun t ht => ⟨t, ht, rfl⟩⟩, fun j _ y hy => isObj_update ?_ j y (hobj j y hy)⟩
  exact fun z hz => hz

theorem pstep_inv (h : Inv ps k) {op : PoolOp} (hop : pok k op) (hstep : pstep k op = some k') :
    (∃ ps', Inv ps' k') ∧ KeepsObjs k k' := by
  rcases pstep_cases hop hstep with ⟨objsize, hcreate⟩ | rfl | ⟨i, x, hi, htake⟩ |
    ⟨ptr, slab, node, k1, ⟨i, hi, hptr⟩, hcheck, htake, rfl⟩
  · exact h.create hcreate
  · exact ⟨⟨ps, h⟩, fun _ _ _ hy => hy⟩
  · obtain ⟨ps', hinv, -, -, hobj⟩ := h.taken hi htake
    exact ⟨⟨ps', hinv⟩, fun j _ => hobj j⟩
  · exact h.free hi hptr hcheck htake

theorem steps_inv (h : Inv ps k) (hrun : Steps pstep pok k k') :
    (∃ ps', Inv ps' k') ∧ KeepsObjs k k' := by
  have hall : Keeps k k' ∧ (∃ ps', Inv ps' k') ∧ KeepsObjs k k' := by
    refine hrun.invariant (P := fun t => Keeps k t ∧ (∃ ps', Inv ps' t) ∧ KeepsObjs k t)
      ⟨.refl k, ⟨ps, h⟩, fun _ _ _ hy => hy⟩ ?_
    rintro t op u ⟨hkeeps, ⟨ps', hinv⟩, hobj⟩ hop hstep
    obtain ⟨hinv', hobj'⟩ := pstep_inv hinv hop hstep
    exact ⟨hkeeps.trans (pstep_keeps hop hstep), hinv',
      fun j hj y hy => hobj' j (hj.trans_le hkeeps.nr) y (hobj j hj y hy)⟩
  exact hall.2

theorem start_inv (hp : Placed ps) :
    Inv ps ⟨sections ps, 2, fun i => if i = 0 then rootPool else cachePool⟩ := by
  have hslabs : ∀ j s, s ∉ (if j = 0 then rootPool else cachePool).slabs := by
    intro j s hs
    split at hs <;> cases hs
  refine ⟨rfl, hp, le_rfl, fun j _ => ?_, fun j _ s hs => absurd hs (hslabs j s),
    fun j _ _ _ _ s hs => absurd hs (hslabs j s)⟩
  dsimp only
  split
  · exact newPool_fits j 64
  · exact newPool_fits j 16

theorem createPools_fits {sizes : List Nat} (h : Inv ps k)
    (hk : createPools sizes k = .ok (some k')) : ∃ ps', Inv ps' k' := by
  induction sizes generalizing ps k with
  | nil =>
    cases hk
    exact ⟨ps, h⟩
  | cons size rest ih =>
    obtain ⟨r, hr, hk⟩ := ok_of_bind hk
    cases r with
    | none => cases hk
    | some k1 =>
      obtain ⟨⟨ps1, hinv⟩, -⟩ := h.create hr
      exact ih hinv hk

/-! ## One object after the other -/

/-- Object `j` of the first slab of pool `i` is returned in `k2`. -/
structure Filled (k : Kmem) (i size j : Nat) (k2 k3 : Kmem) (s : Slab) : Prop where
  run : Steps pstep pok k k2
  reg : i < k2.nrPools
  alloc : slabAllocPool k2 i = .ok (s.objStart + size * j, k3)
  inv : ∃ ps, Inv ps k3
  active : s.active = j
  sized : (k3.pools i).size = size
  cache : (k3.pools i).cache = []
  mem : SlabAlloc.advance s ∈ (k3.pools i).slabs
  next : j + 1 < slots size → (k3.pools i).partials = [SlabAlloc.advance s]

theorem reallocLoop_head (h : Inv ps k) (hi : i < k.nrPools) (hpart : (k.pools i).partials = [s])
    (fuel : Nat) :
    reallocLoop i (fuel + 1) k = .ok (s.objStart + (k.pools i).size * s.active,
      { k with pools := update k.pools i (takeObject (k.pools i) [] s []) }) := by
  have hfits := h.pools i hi
  have hfree := hfits.room s (by rw [hpart]; exact List.mem_cons_self)
  have hlaid := hfits.slabs s (by rw [slabs_eq_cons hpart]; exact List.mem_cons_self)
  obtain ⟨-, -, hlt, hx⟩ := h.takeHead hi hpart
  have hsplit : splitFree [s] = some ([], s, []) := if_pos hfree
  have hindex : s.freelist[s.active]? = some (s.active : Int) := by
    rw [hlaid.freelist, List.getElem?_map, List.getElem?_range hlt]
    rfl
  rw [reallocLoop]
  simp only [hpart, hsplit, hindex, hx, reduceCtorEq, if_false]

theorem takeObject_next (hs : Laid i pool.size s) (hlt : s.active + 1 < s.nrObj) :
    (takeObject pool [] s []).partials = [SlabAlloc.advance s] := by
  have htaken := hs.taken
  unfold takeObject
  dsimp only
  rw [if_neg (by omega)]
  rfl

theorem filled_of_head {k2 kh : Kmem} {fuel : Nat} (hrun : Steps pstep pok k k2)
    (hreg : i < k2.nrPools) (hcall : slabAllocPool k2 i = reallocLoop i (fuel + 1) kh)
    (h : Inv ps kh) (hi : i < kh.nrPools) (hcache : (kh.pools i).cache = [])
    (hpart : (kh.pools i).partials = [s]) (hsize : (kh.pools i).size = size)
    (hactive : s.active = j) : ∃ k3, Filled k i size j k2 k3 s := by
  have hlaid := (h.pools i hi).slabs s (by rw [slabs_eq_cons hpart]; exact List.mem_cons_self)
  rw [reallocLoop_head h hi hpart fuel, hsize, hactive] at hcall
  refine ⟨_, ⟨hrun, hreg, hcall, ⟨ps, (h.takeHead hi hpart).1⟩, hactive, ?_, ?_, ?_, ?_⟩⟩
  · dsimp only
    rw [update_self, takeObject_size, hsize]
  · dsimp only
    rw [update_self, takeObject_cache, hcache]
  · dsimp only
    rw [update_self]
    exact takeObject_mem.2 (.inl rfl)
  · intro hj
    dsimp only
    rw [update_self]
    refine takeObject_next hlaid ?_
    rwa [hactive, hlaid.count, hsize]

theorem filled_first (h : Inv ps k) (hi : i < k.nrPools) (hnew : k.pools i = newPool size)
    (hlo : 1 ≤ size) (hhi : size ≤ 4032) (hslots : 0 < slots size)
    (hpage : PageAlloc.pageAlloc k.secs = .ok (some page, secs)) :
    ∃ k3 s, Filled k i size 0 k k3 s := by
  obtain ⟨-, -, -, -, haligned, htop, -⟩ := h.pageAlloc hpage
  have hn : caculateNrObject page (u64 (page + 64)) (k.pools i).gfporder (k.pools i).size =
      .ok (slots size) := by
    rw [hnew]
    exact (caculateNrObject_eq haligned htop hlo hhi).trans (if_pos hslots)
  obtain ⟨ps', -, hinv⟩ := h.refill hi hpage hn
  have hrefill : slabRefill k i = .ok (some { k with
      secs := secs
      pools := update k.pools i { k.pools i with
        partials := freshSlab page i (k.pools i).size (slots size) ::
          (k.pools i).partials } }) := by
    simp only [slabRefill, hpage, hn, bind, Except.bind]
  have hpart : (k.pools i).partials = [] := by rw [hnew, newPool]
  have hcall : slabAllocPool k i = reallocLoop i (0 + 1) { k with
      secs := secs
      pools := update k.pools i { k.pools i with
        partials := freshSlab page i (k.pools i).size (slots size) :: (k.pools i).partials } } := by
    rw [slabAllocPool, hnew]
    change reallocLoop i 2 k = _
    rw [reallocLoop]
    simp only [if_pos hpart, hrefill, bind, Except.bind]
    rw [hnew]
  have hfilled : ∃ k3, Filled k i size 0 k k3 (freshSlab page i (k.pools i).size (slots size)) :=
    filled_of_head .refl hi hcall hinv hi
      (by dsimp only; rw [update_self, hnew, newPool])
      (by dsimp only; rw [update_self, hpart])
      (by dsimp only; rw [update_self, hnew, newPool]) rfl
  obtain ⟨k3, hfilled⟩ := hfilled
  exact ⟨k3, _, hfilled⟩

theorem Filled.succ {k2 k3 : Kmem} (h : Filled k i size j k2 k3 s) (hj : j + 1 < slots size) :
    ∃ k4, Filled k i size (j + 1) k3 k4 (SlabAlloc.advance s) := by
  obtain ⟨ps', hinv⟩ := h.inv
  have hstep : pstep k2 (.allocPool i) = some k3 := by
    rw [pstep, h.alloc]
    rfl
  have hreg : i < k3.nrPools := by
    rw [(slabAllocPool_taken h.alloc).nrPools]
    exact h.reg
  have hcall : slabAllocPool k3 i = reallocLoop i (1 + 1) k3 := by
    rw [slabAllocPool, h.cache]
  exact filled_of_head (h.run.tail (.allocPool i) h.reg hstep) hreg hcall hinv hreg h.cache
    (h.next hj) h.sized (congrArg (· + 1) h.active)

/-- Every object of the first slab is returned by some call. -/
theorem filled_all (h : Inv ps k) (hi : i < k.nrPools) (hnew : k.pools i = newPool size)
    (hlo : 1 ≤ size) (hhi : size ≤ 4032)
    (hpage : PageAlloc.pageAlloc k.secs = .ok (some page, secs)) (j : Nat) (hj : j < slots size) :
    ∃ k2 k3 s, Filled k i size j k2 k3 s := by
  induction j with
  | zero => exact ⟨k, filled_first h hi hnew hlo hhi hj hpage⟩
  | succ j ih =>
    obtain ⟨k2, k3, s, hfilled⟩ := ih (Nat.lt_of_succ_lt hj)
    obtain ⟨k4, hnext⟩ := hfilled.succ hj
    exact ⟨k3, k4, _, hnext⟩

/-! ## Which sizes work -/

/-- Sizes for which two objects fit, and the second one passes the check by chance. -/
def luckySizes : List Nat :=
  [1504, 1520, 1528, 1532, 1536, 1760, 1776, 1784, 1788, 1792, 1888, 1904, 1912, 1916, 1920, 1952,
    1968, 1976, 1980]

/-- A power of two, one of the sizes above, or a size of which one object fits. -/
def FreeableSize (size : Nat) : Prop :=
  size &&& (size - 1) = 0 ∨ size ∈ luckySizes ∨ 1981 ≤ size

/-- The objects of a slab pass the check for their alignment. -/
def alignedSlots (size : Nat) : Bool :=
  (List.range (slots size)).all fun j =>
    (firstObj size (slots size) + size * j) &&& (size - 1) == 0

/-- `FreeableSize`, in the order in which it is decided fast. -/
def freeableSize (size : Nat) : Bool :=
  size &&& (size - 1) == 0 || decide (1504 ≤ size) && luckySizes.contains size ||
    decide (1981 ≤ size)

theorem freeableSize_iff (size : Nat) : freeableSize size = true ↔ FreeableSize size := by
  have hlow : ∀ z ∈ luckySizes, 1504 ≤ z := by decide
  simp only [freeableSize, FreeableSize, Bool.or_eq_true, Bool.and_eq_true, beq_iff_eq,
    decide_eq_true_eq, List.contains_iff_mem, or_assoc]
  exact or_congr_right (or_congr_left ⟨fun h => h.2, fun h => ⟨hlow size h, h⟩⟩)

theorem sizes_checked : (List.range' 1 2000).all (fun size =>
    decide (0 < slots size) && (alignedSlots size == freeableSize size)) = true := by
  decide +kernel

theorem slots_aligned_iff {size : Nat} (hlo : 1 ≤ size) (hhi : size ≤ 2000) :
    0 < slots size ∧ ((∀ j < slots size,
      (firstObj size (slots size) + size * j) &&& (size - 1) = 0) ↔ FreeableSize size) := by
  have hcheck := List.all_eq_true.1 sizes_checked size (List.mem_range'_1.2 ⟨hlo, by omega⟩)
  rw [Bool.and_eq_true, decide_eq_true_eq, beq_iff_eq] at hcheck
  refine ⟨hcheck.1, ?_⟩
  rw [← freeableSize_iff, ← hcheck.2, alignedSlots, List.all_eq_true]
  simp only [List.mem_range, beq_iff_eq]

/-- In every run, every object that `slab_alloc_pool` returns from a pool created for `size` bytes
passes the assertions of `slab_free`, then and later. -/
def AlwaysFreed (size : Nat) : Prop :=
  ∀ ps, Placed ps → DescsInside ps → ∀ k0 k k1 k2, initSlab (sections ps) = .ok (some k0) →
    Steps pstep pok k0 k → slabPoolCreate k size = .ok (some k1) → Steps pstep pok k1 k2 →
    ∀ x k3, slabAllocPool k2 k.nrPools = .ok (x, k3) → ∀ k4, Steps pstep pok k3 k4 →
      ∃ slab, freeChecks k4 x = .ok slab

theorem initSlab_fits (hp : Placed ps) (h : initSlab (sections ps) = .ok (some k)) :
    ∃ ps', Inv ps' k :=
  createPools_fits (start_inv hp) h

theorem alwaysFreed_of_freeable (hlo : 1 ≤ size) (hhi : size ≤ 2000) (h : FreeableSize size) :
    AlwaysFreed size := by
  intro ps hp _ k0 k k1 k2 hinit hrun hcreate hrun' x k3 halloc k4 hrun''
  obtain ⟨ps0, hinv0⟩ := initSlab_fits hp hinit
  obtain ⟨⟨ps1, hinv⟩, -⟩ := steps_inv hinv0 hrun
  obtain ⟨-, hnr, hpool⟩ := slabPoolCreate_keeps hcreate
  obtain ⟨⟨ps2, hinv1⟩, -⟩ := hinv.create hcreate
  obtain ⟨⟨ps3, hinv2⟩, -⟩ := steps_inv hinv1 hrun'
  have hkeeps := steps_keeps hrun'
  have htake := slabAllocPool_taken halloc
  have hreg : k.nrPools < k2.nrPools := by
    have := hkeeps.nr
    omega
  obtain ⟨ps4, hinv3, -, hobj, -⟩ := hinv2.taken hreg htake
  obtain ⟨⟨ps5, hinv4⟩, hkept⟩ := steps_inv hinv3 hrun''
  have hreg3 : k.nrPools < k3.nrPools := by rwa [htake.nrPools]
  have hreg4 := hreg3.trans_le (steps_keeps hrun'').nr
  have hsize : (k4.pools k.nrPools).size = size := by
    have hkind := ((hkeeps.trans htake.keeps).trans (steps_keeps hrun'')).kind k.nrPools (by omega)
    rw [hpool] at hkind
    exact congrArg Prod.fst hkind
  obtain ⟨s, hs, j, hj, rfl⟩ := hkept k.nrPools hreg3 x hobj
  have hlaid := (hinv4.pools _ hreg4).slabs s hs
  have htaken := hlaid.taken
  have hcount := hlaid.count
  rw [hsize] at hcount
  refine ⟨s, (hinv4.freeChecks_eq hreg4 hs hj).trans (if_pos ?_)⟩
  rw [hsize]
  exact (slots_aligned_iff hlo hhi).2.2 h j (by omega)

theorem smallSection_placed : Placed PageRuns.smallSection :=
  init_placed _ _ (by decide) (by decide) (by decide) (by decide)

theorem smallSection_descsInside : DescsInside PageRuns.smallSection :=
  init_descsInside _ _ (by decide) (by decide) (by decide) (by decide)

/-- In a small heap there is a page for the first slab of a new pool. -/
theorem exists_new_pool (size : Nat) : ∃ k0 k1 page secs,
    initSlab (sections PageRuns.smallSection) = .ok (some k0) ∧
      slabPoolCreate k0 size = .ok (some k1) ∧
      PageAlloc.pageAlloc k1.secs = .ok (some page, secs) := by
  have hstart : (smallHeap.bind fun k => (slabAllocPool k 0).toOption.bind fun r =>
      (PageAlloc.pageAlloc r.2.secs).toOption.bind fun p => p.1.map fun _ => r.2.nrPools) =
        some 9 := by
    decide +kernel
  obtain ⟨k0, hheap, hstart⟩ := Option.bind_eq_some_iff.1 hstart
  obtain ⟨⟨x, kr⟩, halloc, hstart⟩ := Option.bind_eq_some_iff.1 hstart
  obtain ⟨⟨va, secs⟩, hpage, hstart⟩ := Option.bind_eq_some_iff.1 hstart
  obtain ⟨page, rfl, hnr⟩ := Option.map_eq_some_iff.1 hstart
  have hcreate : slabPoolCreate k0 size = .ok (some { kr with
      nrPools := kr.nrPools + 1
      pools := update kr.pools kr.nrPools (newPool size) }) := by
    rw [slabPoolCreate, ok_of_toOption halloc]
    exact if_neg (by rw [hnr]; decide)
  exact ⟨k0, _, page, secs, initSlab_of_smallHeap hheap, hcreate, ok_of_toOption hpage⟩

theorem freeable_of_alwaysFreed (hlo : 1 ≤ size) (hhi : size ≤ 2000) (h : AlwaysFreed size) :
    FreeableSize size := by
  refine (slots_aligned_iff hlo hhi).2.1 fun j hj => ?_
  obtain ⟨k0, k1, page, secs, hinit, hcreate, hpage⟩ := exists_new_pool size
  obtain ⟨ps0, hinv0⟩ := initSlab_fits smallSection_placed hinit
  obtain ⟨⟨ps1, hinv1⟩, -⟩ := hinv0.create hcreate
  obtain ⟨-, hnr, hpool⟩ := slabPoolCreate_keeps hcreate
  obtain ⟨k2, k3, s, hfilled⟩ := filled_all hinv1 (show k0.nrPools < k1.nrPools by omega) hpool hlo
    (by omega) hpage j hj
  obtain ⟨slab, hcheck⟩ := h _ smallSection_placed smallSection_descsInside k0 k0 k1 k2 hinit .refl
    hcreate hfilled.run _ k3 hfilled.alloc k3 .refl
  obtain ⟨ps3, hinv3⟩ := hfilled.inv
  have hreg : k0.nrPools < k3.nrPools := by
    rw [(slabAllocPool_taken hfilled.alloc).nrPools]
    exact hfilled.reg
  have hj' : j < (SlabAlloc.advance s).active := by
    rw [SlabAlloc.advance, hfilled.active]
    exact Nat.lt_succ_self j
  have heq := hinv3.freeChecks_eq hreg hfilled.mem hj'
  rw [hfilled.sized] at heq
  by_contra hbad
  rw [if_neg hbad] at heq
  cases heq.symm.trans hcheck

/-- **Freeing what a pool returns**: of the object sizes from 1 to 2000, exactly the powers of two,
19 sizes with two objects in a page and the 20 largest with one never fail an assertion of
`slab_free`. -/
theorem slab_free_sizes_iff (size : Nat) (hlo : 1 ≤ size) (hhi : size ≤ 2000) :
    AlwaysFreed size ↔ FreeableSize size :=
  ⟨freeable_of_alwaysFreed hlo hhi, alwaysFreed_of_freeable hlo hhi⟩

theorem slab_free_sizes_lucky : AlwaysFreed 64 ∧ AlwaysFreed 1536 := by
  refine ⟨(slab_free_sizes_iff 64 (by decide) (by decide)).2 (.inl (by decide)),
    (slab_free_sizes_iff 1536 (by decide) (by decide)).2 (.inr (.inl (by decide)))⟩

/-- The second object of a pool for 12 bytes cannot be freed. -/
theorem slab_free_refuses_second :
    (smallHeap.bind fun k => (slabPoolCreate k 12).toOption.join.bind fun k1 =>
      (slabAllocPool k1 9).toOption.bind fun r => (slabAllocPool r.2 9).toOption.bind fun r' =>
        match slabFree r'.2 r'.1 with
        | .error e => some (r'.1 - r.1, e)
        | .ok _ => none) = some (12, .assertion .slabFree) := by
  decide +kernel

end SpringOs.SlabSizes
