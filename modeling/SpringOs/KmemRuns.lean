import SpringOs.Heap
import SpringOs.PageAccount

/-!
Runs of `src/kmem.c`: any sequence of `kalloc` and of `kfree` on a live block,
from the heap `page_init` and `init_slab` leave.

* `createPools_inv`, `initSlab_inv`: the heap at the start;
* `kalloc_small`, `kalloc_big`, `kfree_spec`: what one call does;
* `kmem_runs_safe`: live blocks never overlap, and `kfree` gives each one back to
  the allocator it came from.
-/

namespace SpringOs.KmemRuns
open Lib.Word Lib.Machine Lib.Ranges Bitmap Kernel PageAlloc SlabAlloc Heap
open Function (update update_self update_of_ne)
open PageRuns (Placed SecInv sect pageVa indexOf pageFree_live mem_filter_has init_placed
  init_secInv_of_fit)
open PageAccount (Fits)

variable {k heap : Kmem} {n x : Nat}

/-! ## The start -/

/-- The pools `init_slab` creates, one after the other. -/
theorem createPools_inv (sizes : List Nat) (hsizes : ∀ z ∈ sizes, PoolSize z) {ps : PageSection}
    {blocks : List Extent} {nr : Nat} {pools : Nat → SlabPool} (hnr : 0 < nr)
    (h : HeapInv ps blocks nr pools (fun _ => []) [])
    (hk : createPools sizes ⟨sections ps, nr, pools⟩ = .ok (some k)) :
    ∃ ps' blocks' pools', k = ⟨sections ps', nr + sizes.length, pools'⟩ ∧
      HeapInv ps' blocks' (nr + sizes.length) pools' (fun _ => []) [] ∧
      (∀ i < nr, (pools' i).size = (pools i).size) ∧
      ∀ j z, sizes[j]? = some z → (pools' (nr + j)).size = z := by
  induction sizes generalizing ps blocks nr pools with
  | nil =>
    simp only [createPools, Except.ok.injEq, Option.some.injEq] at hk
    exact ⟨ps, blocks, pools, hk.symm, h, fun _ _ => rfl, by simp⟩
  | cons size rest ih =>
    rcases slabAllocPool_spec h hnr with
      ⟨he, _⟩ | ⟨x, ps1, blocks1, pools1, he, hinv, _, hsame, hsize0⟩
    · simp [createPools, slabPoolCreate, he, bind, Except.bind] at hk
    · have hinv1 : HeapInv ps1 blocks1 nr pools1 (fun _ => []) [] :=
        hinv.forget (fun _ _ => List.nil_sublist _) (List.Sublist.refl _)
      have hinv2 := hinv1.addPool (hsizes size List.mem_cons_self) rfl
      simp only [createPools, slabPoolCreate, he, bind, Except.bind] at hk
      by_cases hmax : maxMemPools ≤ nr
      · simp [hmax] at hk
      · simp only [hmax, if_false] at hk
        obtain ⟨ps', blocks', pools', rfl, hinv', hlow, hhigh⟩ :=
          ih (fun z hz => hsizes z (List.mem_cons_of_mem _ hz)) (Nat.succ_pos _) hinv2 hk
        have hlen : nr + (size :: rest).length = nr + 1 + rest.length := by
          rw [List.length_cons]
          omega
        refine ⟨ps', blocks', pools', by rw [hlen], by rw [hlen]; exact hinv', ?_, ?_⟩
        · intro i hi
          rw [hlow i (by omega), update_of_ne (by omega)]
          by_cases hi0 : i = 0
          · subst hi0
            exact hsize0
          · rw [hsame i hi0]
        · intro j z hz
          cases j with
          | zero =>
            rw [Nat.add_zero, hlow nr (by omega), update_self]
            simpa [newPool] using hz
          | succ j =>
            rw [← hhigh j z (by simpa using hz)]
            congr 1
            congr 1
            omega

/-- **The heap after `init_slab`**: nine pools, the general ones of 8 to 512
bytes. -/
theorem initSlab_inv {ps : PageSection} (hp : Placed ps) (hi : SecInv ps [])
    (hk : initSlab (sections ps) = .ok (some k)) :
    ∃ ps' blocks' pools', k = ⟨sections ps', 9, pools'⟩ ∧
      HeapInv ps' blocks' 9 pools' (fun _ => []) [] ∧
      ∀ i, 2 ≤ i → i < 9 → (pools' i).size = 2 ^ (i + 1) := by
  obtain ⟨ps', blocks', pools', rfl, hinv, _, hhigh⟩ :=
    createPools_inv generalPools (fun _ hz => generalPools_size hz) (by decide)
      (heapInv_start hp hi) hk
  refine ⟨ps', blocks', pools', rfl, hinv, ?_⟩
  intro i hlo hhi
  obtain ⟨j, rfl⟩ : ∃ j, i = 2 + j := ⟨i - 2, by omega⟩
  have hlookup : ∀ j < 7, generalPools[j]? = some (2 ^ (2 + j + 1)) := by decide
  exact hhigh j _ (hlookup j (by omega))

/-! ## Blocks -/

/-- A block `kalloc(n)` returned. -/
structure Block where
  addr : Nat
  n : Nat
  deriving DecidableEq, Repr

/-- The first pool from `i` on whose objects hold `n` bytes. -/
def firstFit (n : Nat) : Nat → Nat → Nat
  | 0, i => i
  | fuel + 1, i => if n ≤ 2 ^ (i + 1) then i else firstFit n fuel (i + 1)

def poolIndex (n : Nat) : Nat := firstFit n 7 2

def pagesOf (n : Nat) : Nat := (n + 4095) / 4096

/-- The bytes a request of `n` bytes gets: an object of its pool, or pages. -/
def capacity (n : Nat) : Nat := if n ≤ 512 then 2 ^ (poolIndex n + 1) else 4096 * pagesOf n

def Block.extent (b : Block) : Extent := ⟨b.addr, capacity b.n⟩

theorem firstFit_spec (n fuel i : Nat) (hfuel : 0 < fuel) (hn : n ≤ 2 ^ (i + fuel)) :
    i ≤ firstFit n fuel i ∧ firstFit n fuel i < i + fuel ∧ n ≤ 2 ^ (firstFit n fuel i + 1) := by
  induction fuel generalizing i with
  | zero => omega
  | succ fuel ih =>
    unfold firstFit
    split
    · rename_i hle
      exact ⟨le_refl _, by omega, hle⟩
    · rename_i hgt
      have hpos : 0 < fuel := by
        by_contra h0
        obtain rfl : fuel = 0 := by omega
        exact hgt hn
      obtain ⟨h1, h2, h3⟩ := ih (i + 1) hpos (by rwa [Nat.add_right_comm i 1 fuel])
      exact ⟨by omega, by omega, h3⟩

theorem poolIndex_spec (hn : n ≤ 512) :
    2 ≤ poolIndex n ∧ poolIndex n < 9 ∧ n ≤ 2 ^ (poolIndex n + 1) :=
  firstFit_spec n 7 2 (by decide) hn

theorem le_capacity (n : Nat) : n ≤ capacity n := by
  unfold capacity
  split
  · rename_i h
    exact (poolIndex_spec h).2.2
  · unfold pagesOf
    omega

theorem slabAllocLoop_eq (hnr : k.nrPools = 9)
    (hsize : ∀ i, 2 ≤ i → i < 9 → (k.pools i).objSize = 2 ^ (i + 1)) (fuel i : Nat)
    (hfuel : 0 < fuel) (hlo : 2 ≤ i) (hhi : i + fuel ≤ 9) (hn : n ≤ 2 ^ (i + fuel)) :
    slabAllocLoop k n (fuel + 1) i =
      (slabAllocPool k (firstFit n fuel i) >>= fun r => .ok (some r.1, r.2)) := by
  induction fuel generalizing i with
  | zero => omega
  | succ fuel ih =>
    unfold slabAllocLoop firstFit
    rw [if_neg (by omega), hsize i hlo (by omega)]
    by_cases hle : n ≤ 2 ^ (i + 1)
    · rw [if_pos (by exact_mod_cast hle), if_pos hle]
    · have hpos : 0 < fuel := by
        by_contra h0
        obtain rfl : fuel = 0 := by omega
        exact hle hn
      rw [if_neg (by exact_mod_cast hle), if_neg hle]
      exact ih (i + 1) hpos (by omega) (by omega) (by rwa [Nat.add_right_comm i 1 fuel])

/-! ## The system -/

structure KSys where
  heap : Kmem
  live : List Block

inductive KOp
  | kalloc (n : Nat)
  | kfree (addr : Nat)
  deriving DecidableEq, Repr

def kstep (s : KSys) : KOp → Option KSys
  | .kalloc n =>
    match kalloc s.heap n with
    | .ok (some va, heap) => some ⟨heap, ⟨va, n⟩ :: s.live⟩
    | .ok (none, heap) => some ⟨heap, s.live⟩
    | .error _ => none
  | .kfree addr =>
    match kfree s.heap addr with
    | .ok heap => some ⟨heap, s.live.filter (fun b => b.addr ≠ addr)⟩
    | .error _ => none

variable {s : KSys}

theorem kstep_kfree_of {addr : Nat} (h : kfree s.heap addr = .ok heap) :
    kstep s (.kfree addr) = some ⟨heap, s.live.filter (fun b => b.addr ≠ addr)⟩ := by
  simp only [kstep, h]

def PageLeft (ps : PageSection) : Prop :=
  ∃ p, FreeArea ps.bitmap (bitmapSize ps.nrPages) 1 p ∧ (p + 1 : Int) ≤ ps.nrPages

/-- Requests of up to 2 MiB and frees of live blocks, as long as pages remain:
a page for a slab or a cache node, and no block past the managed pages. -/
def kok (s : KSys) : KOp → Prop
  | .kalloc n => n ≤ 2097152 ∧ PageLeft (sect s.heap.secs) ∧
      (512 < n → Fits (sect s.heap.secs) (pagesOf n))
  | .kfree addr => (∃ b ∈ s.live, b.addr = addr) ∧ PageLeft (sect s.heap.secs)

/-! ## The invariant -/

/-- The objects of pool `i` among the live blocks. -/
def usedOf (live : List Block) (i : Nat) : List Nat :=
  (live.filter (fun b => b.n ≤ 512 ∧ poolIndex b.n = i)).map Block.addr

def runOf (ps : PageSection) (b : Block) : Extent :=
  ⟨indexOf (sections ps) b.addr, pagesOf b.n⟩

def runsOf (ps : PageSection) (live : List Block) : List Extent :=
  (live.filter (fun b => 512 < b.n)).map (runOf ps)

structure LiveInv (ps : PageSection) (blocks : List Extent) (pools : Nat → SlabPool)
    (live : List Block) : Prop where
  heap : HeapInv ps blocks 9 pools (usedOf live) (runsOf ps live)
  sizes : ∀ i, 2 ≤ i → i < 9 → (pools i).size = 2 ^ (i + 1)
  run : ∀ b ∈ live, 512 < b.n → b.addr = pageVa (sections ps) (runOf ps b).pos
  nodup : live.Nodup

def KInv (s : KSys) : Prop :=
  ∃ ps blocks pools, s.heap = ⟨sections ps, 9, pools⟩ ∧ LiveInv ps blocks pools s.live

variable {ps : PageSection} {blocks : List Extent} {pools : Nat → SlabPool} {live : List Block}
  {b a : Block}

theorem mem_usedOf (hb : b ∈ live) (hn : b.n ≤ 512) : b.addr ∈ usedOf live (poolIndex b.n) :=
  List.mem_map_of_mem (List.mem_filter.mpr ⟨hb, by simp [hn]⟩)

theorem mem_runsOf (ps : PageSection) (hb : b ∈ live) (hn : 512 < b.n) :
    runOf ps b ∈ runsOf ps live :=
  List.mem_map_of_mem (List.mem_filter.mpr ⟨hb, by simp [hn]⟩)

theorem usedOf_cons_small (hn : n ≤ 512) :
    usedOf (⟨x, n⟩ :: live) =
      update (usedOf live) (poolIndex n) (x :: usedOf live (poolIndex n)) := by
  funext i
  by_cases hi : i = poolIndex n
  · subst hi
    simp [usedOf, hn]
  · rw [update_of_ne hi]
    simp [usedOf, Ne.symm hi]

theorem runsOf_cons_small (hn : n ≤ 512) : runsOf ps (⟨x, n⟩ :: live) = runsOf ps live := by
  simp [runsOf, show ¬ 512 < n by omega]

theorem usedOf_cons_big (hn : 512 < n) : usedOf (⟨x, n⟩ :: live) = usedOf live := by
  funext i
  simp [usedOf, show ¬ n ≤ 512 by omega]

theorem runsOf_cons_big (hn : 512 < n) :
    runsOf ps (⟨x, n⟩ :: live) = runOf ps ⟨x, n⟩ :: runsOf ps live := by
  simp [runsOf, hn]

/-! ## Disjointness -/

theorem LiveInv.obj (h : LiveInv ps blocks pools live) (hb : b ∈ live) (hn : b.n ≤ 512) :
    ∃ s ∈ (pools (poolIndex b.n)).slabs, s.page % 4096 = 0 ∧ s.page ≤ b.addr ∧
      b.addr + capacity b.n ≤ s.page + 4096 := by
  obtain ⟨hlo, hhi, _⟩ := poolIndex_spec hn
  obtain ⟨s, hs, j, hj, he⟩ :=
    h.heap.objs _ hhi b.addr (List.mem_append_right _ (mem_usedOf hb hn))
  have hok := (h.heap.poolOk _ hhi).slabs s hs
  obtain ⟨h1, h2⟩ := hok.obj_bounds (lt_of_lt_of_le hj hok.active_le)
  refine ⟨s, hs, hok.aligned, by omega, ?_⟩
  rw [capacity, if_pos hn, ← h.sizes _ hlo hhi]
  omega

section

variable (h : LiveInv ps blocks pools live) (ha : a ∈ live) (hb : b ∈ live)
include h ha hb

theorem LiveInv.apart_small_big (hna : a.n ≤ 512) (hnb : 512 < b.n) : a.extent.Apart b.extent := by
  obtain ⟨_, hhi, _⟩ := poolIndex_spec hna
  obtain ⟨s, hs, _, hlo, hend⟩ := h.obj ha hna
  obtain ⟨q, hq, hpage⟩ := h.heap.backed _ hhi s hs
  obtain ⟨hr, hpages⟩ := h.heap.runsLive _ (mem_runsOf ps hb hnb)
  have hne : (⟨q, 1⟩ : Extent) ≠ runOf ps b := by
    intro he
    refine hpages _ hhi s hs ?_
    rw [hpage, ← he]
  have haddr := h.run b hb hnb
  refine h.heap.apart_of_pages hq hr hne ?_ ?_ (le_of_eq haddr.symm) ?_
  · simp only [Block.extent]
    omega
  · simp only [Block.extent]
    omega
  · simp only [Block.extent]
    rw [capacity, if_neg (by omega), ← haddr]
    exact le_refl _

theorem LiveInv.apart_big (hna : 512 < a.n) (hnb : 512 < b.n) (hne : a ≠ b) :
    a.extent.Apart b.extent := by
  have hra := (h.heap.runsLive _ (mem_runsOf ps ha hna)).1
  have hrb := (h.heap.runsLive _ (mem_runsOf ps hb hnb)).1
  have hrun : runOf ps a ≠ runOf ps b := by
    intro he
    refine hne (List.inj_on_of_nodup_map h.heap.runsNodup ?_ ?_ he)
    · simp [ha, hna]
    · simp [hb, hnb]
  have haddr := h.run a ha hna
  have haddr' := h.run b hb hnb
  refine h.heap.apart_of_pages hra hrb hrun (le_of_eq haddr.symm) ?_ (le_of_eq haddr'.symm) ?_
  · simp only [Block.extent]
    rw [capacity, if_neg (by omega), ← haddr]
    exact le_refl _
  · simp only [Block.extent]
    rw [capacity, if_neg (by omega), ← haddr']
    exact le_refl _

theorem LiveInv.apart_small (hna : a.n ≤ 512) (hnb : b.n ≤ 512) (hne : a ≠ b) :
    a.extent.Apart b.extent := by
  obtain ⟨hlo, hhi, _⟩ := poolIndex_spec hna
  obtain ⟨_, hhi', _⟩ := poolIndex_spec hnb
  by_cases hpool : poolIndex a.n = poolIndex b.n
  · have hua := List.mem_append_right ((pools (poolIndex a.n)).cache.map SlabCache.obj)
      (mem_usedOf ha hna)
    have hub := List.mem_append_right ((pools (poolIndex a.n)).cache.map SlabCache.obj)
      (hpool ▸ mem_usedOf hb hnb)
    have haddr : a.addr ≠ b.addr := by
      intro he
      have hnd := (List.nodup_append.mp (h.heap.distinct _ hhi)).2.1
      refine hne (List.inj_on_of_nodup_map hnd ?_ ?_ he)
      · simp [ha, hna]
      · simp [hb, hnb, hpool]
    have hap := (h.heap.poolOk _ hhi).obj_apart (h.heap.objs _ hhi _ hua)
      (h.heap.objs _ hhi _ hub) haddr
    rw [h.sizes _ hlo hhi] at hap
    unfold Block.extent capacity
    rwa [if_pos hna, if_pos hnb, ← hpool]
  · obtain ⟨s, hs, hsa, h1, h2⟩ := h.obj ha hna
    obtain ⟨t, ht, hta, h3, h4⟩ := h.obj hb hnb
    have hpage := h.heap.apart _ hhi _ hhi' hpool s hs t ht
    simp only [Block.extent, Extent.Apart]
    omega

/-- **Live blocks do not overlap.** -/
theorem LiveInv.apart (hne : a ≠ b) : a.extent.Apart b.extent := by
  by_cases hna : a.n ≤ 512
  · by_cases hnb : b.n ≤ 512
    · exact h.apart_small ha hb hna hnb hne
    · exact h.apart_small_big ha hb hna (by omega)
  · by_cases hnb : b.n ≤ 512
    · exact Or.symm (h.apart_small_big hb ha hnb (by omega))
    · exact h.apart_big ha hb (by omega) (by omega) hne

end

/-! ## One call -/

variable {ps' : PageSection} {live' : List Block} {s' : KSys}

theorem runsOf_congr (h : ps'.paBase = ps.paBase) : runsOf ps' live = runsOf ps live := by
  have hrun : runOf ps' = runOf ps := by
    funext b
    simp only [runOf, indexOf, PageRuns.sect_sections, h]
  rw [runsOf, runsOf, hrun]

theorem LiveInv.run_congr (h : LiveInv ps blocks pools live) (hbase : ps'.paBase = ps.paBase) :
    ∀ b ∈ live, 512 < b.n → b.addr = pageVa (sections ps') (runOf ps' b).pos := by
  intro b hb hn
  have hrun := h.run b hb hn
  simp only [runOf, indexOf, pageVa, PageRuns.sect_sections] at hrun ⊢
  rw [hbase]
  exact hrun

theorem kalloc_pool (h : LiveInv ps blocks pools live) (hn : n ≤ 512) :
    kalloc ⟨sections ps, 9, pools⟩ n =
      (slabAllocPool ⟨sections ps, 9, pools⟩ (poolIndex n) >>= fun r => .ok (some r.1, r.2)) := by
  have hroot : (pools 0).objSize ≠ 0 := by
    have hok := h.heap.poolOk 0 (by decide)
    have := hok.size.bounds
    rw [hok.objSize]
    omega
  unfold kalloc slabAlloc
  rw [if_pos hn, if_neg (by omega), if_neg (by simp [hroot])]
  refine slabAllocLoop_eq rfl ?_ 7 2 (by decide) (by decide) (by decide) hn
  intro i h2 h9
  rw [(h.heap.poolOk i h9).objSize, h.sizes i h2 h9]

/-- A request of up to 512 bytes. -/
theorem kalloc_small (h : LiveInv ps blocks pools live) (hn : n ≤ 512) :
    (kalloc ⟨sections ps, 9, pools⟩ n = .error (.assertion .slabAllocPool) ∧
      ∀ p, ¬ FreeArea ps.bitmap (bitmapSize ps.nrPages) 1 p) ∨
    ∃ va ps' blocks' pools', kalloc ⟨sections ps, 9, pools⟩ n =
        .ok (some va, ⟨sections ps', 9, pools'⟩) ∧
      LiveInv ps' blocks' pools' (⟨va, n⟩ :: live) := by
  obtain ⟨hlo, hhi, _⟩ := poolIndex_spec hn
  rw [kalloc_pool h hn]
  rcases slabAllocPool_spec h.heap hhi with
    ⟨he, hnone⟩ | ⟨x, ps', blocks', pools', he, hinv, hbase, hsame, hsize⟩
  · exact .inl ⟨by rw [he]; rfl, hnone⟩
  · refine .inr ⟨x, ps', blocks', pools', by rw [he]; rfl, ?_, ?_, ?_, ?_⟩
    · rw [usedOf_cons_small hn, runsOf_cons_small hn, runsOf_congr hbase]
      exact hinv
    · intro i h2 h9
      by_cases hi : i = poolIndex n
      · rw [hi, hsize, ← hi, h.sizes i h2 h9]
      · rw [hsame i hi, h.sizes i h2 h9]
    · intro b hb hbig
      rcases List.mem_cons.mp hb with rfl | hb
      · simp only at hbig
        omega
      · exact h.run_congr hbase b hb hbig
    · refine List.nodup_cons.mpr ⟨?_, h.nodup⟩
      intro hmem
      have hnd := (List.nodup_append.mp (hinv.distinct _ hhi)).2.1
      rw [update_self, List.nodup_cons] at hnd
      exact hnd.1 (mem_usedOf hmem hn)

theorem kallocPages_eq (hn : n ≤ 2097152) : kallocPages n = (pagesOf n : Nat) := by
  unfold kallocPages pagesOf
  rw [alignUp_page (by omega), i32_of_lt (by omega) (by omega)]
  omega

/-- A larger request. -/
theorem kalloc_big (h : LiveInv ps blocks pools live) (hn : 512 < n) (hmax : n ≤ 2097152) :
    kalloc ⟨sections ps, 9, pools⟩ n = .ok (none, ⟨sections ps, 9, pools⟩) ∨
    ∃ va ps' blocks' pools', kalloc ⟨sections ps, 9, pools⟩ n =
        .ok (some va, ⟨sections ps', 9, pools'⟩) ∧
      LiveInv ps' blocks' pools' (⟨va, n⟩ :: live) := by
  have hsmall := h.heap.placed.small
  have hcount : 1 ≤ pagesOf n ∧ pagesOf n ≤ 512 := by
    unfold pagesOf
    omega
  unfold kalloc
  rw [if_neg (by omega), kallocPages_eq hmax]
  rcases pageAllocn_cases ps hcount.1 hcount.2 (by omega) with ⟨he, _⟩ | ⟨pos, hfree, he⟩
  · exact .inl (by rw [he]; rfl)
  · have hlt := FreeArea.lt_limit hfree.1
    rw [h.heap.placed.pa_eq (by omega)] at he
    have hrun : runOf ps ⟨pageVa (sections ps) pos, n⟩ = ⟨pos, pagesOf n⟩ := by
      simp only [runOf, h.heap.placed.indexOf_pageVa (show pos < limit ps by omega)]
    have hnew := h.heap.addRun hcount.1 hcount.2 hfree.1
    refine .inr ⟨pageVa (sections ps) pos, grant ps pos (pagesOf n), ⟨pos, pagesOf n⟩ :: blocks,
      pools, by rw [he]; rfl, ?_, h.sizes, ?_, ?_⟩
    · rw [usedOf_cons_big hn, runsOf_congr (PageRuns.grant_paBase ps pos (pagesOf n)),
        runsOf_cons_big hn, hrun]
      exact hnew
    · intro b hb hbig
      rcases List.mem_cons.mp hb with rfl | hb
      · change pageVa (sections ps) pos =
          pageVa (sections ps) (runOf ps ⟨pageVa (sections ps) pos, n⟩).pos
        rw [hrun]
      · exact h.run b hb hbig
    · refine List.nodup_cons.mpr ⟨?_, h.nodup⟩
      intro hmem
      have hnd := (List.nodup_cons.mp hnew.runsNodup).1
      rw [← hrun] at hnd
      exact hnd (mem_runsOf ps hmem hn)

theorem usedOf_sublist (h : live'.Sublist live) (i : Nat) :
    (usedOf live' i).Sublist (usedOf live i) :=
  (h.filter _).map _

theorem runsOf_sublist (h : live'.Sublist live) : (runsOf ps live').Sublist (runsOf ps live) :=
  (h.filter _).map _

theorem sublist_erase {α : Type} [DecidableEq α] {l l' : List α} {a : α} (h : l'.Sublist l)
    (ha : a ∉ l') : l'.Sublist (l.erase a) := by
  rw [← List.erase_of_not_mem ha]
  exact h.erase a

/-- The block is back where it came from: an object heads the chain of its pool; of a block of
pages the bit and the descriptor of its first page are cleared, and nothing else changes. -/
structure GivenBack (k k' : Kmem) (b : Block) : Prop where
  object : b.n ≤ 512 → ∃ node, (k'.pools (poolIndex b.n)).cache =
    ⟨node, b.addr⟩ :: (k.pools (poolIndex b.n)).cache
  pools : 512 < b.n → k'.pools = k.pools
  pages : 512 < b.n → ∃ i, b.addr = pageVa k.secs i ∧
    getBit (sect k.secs).bitmap i = true ∧ ((sect k.secs).pages i).count = pagesOf b.n ∧
    getBit (sect k'.secs).bitmap i = false ∧ (sect k'.secs).pages i = ⟨0, 0⟩ ∧
    ∀ j ≠ i, getBit (sect k'.secs).bitmap j = getBit (sect k.secs).bitmap j ∧
      (sect k'.secs).pages j = (sect k.secs).pages j

theorem kfree_small (h : LiveInv ps blocks pools live) (hb : b ∈ live) (hn : b.n ≤ 512) :
    (kfree ⟨sections ps, 9, pools⟩ b.addr = .error (.assertion .slabAllocPool) ∧
      ∀ p, ¬ FreeArea ps.bitmap (bitmapSize ps.nrPages) 1 p) ∨
    ∃ ps' blocks' pools', kfree ⟨sections ps, 9, pools⟩ b.addr = .ok ⟨sections ps', 9, pools'⟩ ∧
      LiveInv ps' blocks' pools' (live.filter (fun c => c.addr ≠ b.addr)) ∧
      GivenBack ⟨sections ps, 9, pools⟩ ⟨sections ps', 9, pools'⟩ b := by
  obtain ⟨hlo, hhi, _⟩ := poolIndex_spec hn
  have hused := mem_usedOf hb hn
  have hsub : (live.filter (fun c => c.addr ≠ b.addr)).Sublist live := List.filter_sublist
  unfold kfree
  rw [if_pos (slabOwnAddr_obj h.heap hhi (by omega) hused)]
  rcases slabFree_spec h.heap hhi (by decide) hused with
    hnone | ⟨ps', blocks', pools', he, hinv, hbase, hsize, hchain⟩
  · exact .inl hnone
  · refine .inr ⟨ps', blocks', pools', he, ⟨?_, ?_, ?_, h.nodup.sublist hsub⟩,
      fun _ => hchain (by omega), fun hbig => by omega, fun hbig => by omega⟩
    · rw [runsOf_congr hbase]
      refine hinv.forget ?_ (runsOf_sublist hsub)
      intro i _
      by_cases hi : i = poolIndex b.n
      · subst hi
        rw [update_self]
        refine sublist_erase (usedOf_sublist hsub _) ?_
        intro hmem
        obtain ⟨c, hc, hcb⟩ := List.mem_map.mp hmem
        have := (List.mem_filter.mp (List.mem_filter.mp hc).1).2
        simp [hcb] at this
      · rw [update_of_ne hi]
        exact usedOf_sublist hsub i
    · intro i h2 h9
      rw [hsize i, h.sizes i h2 h9]
    · intro c hc
      exact h.run_congr hbase c (hsub.subset hc)

theorem kfree_big (h : LiveInv ps blocks pools live) (hb : b ∈ live) (hn : 512 < b.n) :
    ∃ ps' blocks', kfree ⟨sections ps, 9, pools⟩ b.addr = .ok ⟨sections ps', 9, pools⟩ ∧
      LiveInv ps' blocks' pools (live.filter (fun c => c.addr ≠ b.addr)) ∧
      GivenBack ⟨sections ps, 9, pools⟩ ⟨sections ps', 9, pools⟩ b := by
  have hrun := mem_runsOf ps hb hn
  have hblock := (h.heap.runsLive _ hrun).1
  obtain ⟨hlen, _, hend⟩ := h.heap.sec.size _ hblock
  have haddr := h.run b hb hn
  have hsub : (live.filter (fun c => c.addr ≠ b.addr)).Sublist live := List.filter_sublist
  have hpage := (pageVa_slab h.heap.placed (runOf ps b).pos (by omega)).1
  rw [← haddr] at hpage
  have hfree := pageFree_live h.heap.placed h.heap.sec hblock (i := (runOf ps b).pos)
    ⟨le_refl _, by omega⟩
  rw [← haddr] at hfree
  have hback : GivenBack ⟨sections ps, 9, pools⟩
      ⟨sections (releaseAt ps (runOf ps b).pos), 9, pools⟩ b := by
    refine ⟨fun hsmall => by omega, fun _ => rfl, fun _ => ⟨(runOf ps b).pos, haddr,
      h.heap.sec.held _ hblock _ ⟨le_refl _, by omega⟩, ?_, ?_, ?_, fun j hj => ⟨?_, ?_⟩⟩⟩
    · rw [PageRuns.sect_sections, h.heap.sec.desc _ hblock]
      rfl
    · simp [PageRuns.sect_sections, releaseAt, getBit_clearBit]
    · simp [PageRuns.sect_sections, releaseAt]
    · simp [PageRuns.sect_sections, releaseAt, getBit_clearBit, hj]
    · exact update_of_ne hj ..
  refine ⟨_, _, ?_, ⟨(h.heap.releaseRun hrun).forget (fun i _ => usedOf_sublist hsub i) ?_,
    h.sizes, ?_, h.nodup.sublist hsub⟩, hback⟩
  · unfold kfree
    rw [if_neg (by simp [slabOwnAddr_page h.heap hpage]), hfree]
    rfl
  · rw [runsOf_congr (PageRuns.releaseAt_paBase ps (runOf ps b).pos)]
    refine sublist_erase (runsOf_sublist hsub) ?_
    intro hmem
    obtain ⟨c, hc, hcb⟩ := List.mem_map.mp hmem
    obtain ⟨hc, hbig⟩ := List.mem_filter.mp hc
    obtain ⟨hc, hne⟩ := List.mem_filter.mp hc
    have hca := h.run c hc (by simpa using hbig)
    rw [hcb, ← haddr] at hca
    simp [hca] at hne
  · intro c hc hbig
    exact h.run c (hsub.subset hc) hbig

/-! ## Runs -/

theorem not_free_of_pageLeft (h : PageLeft ps) :
    ¬ ∀ p, ¬ FreeArea ps.bitmap (bitmapSize ps.nrPages) 1 p := by
  obtain ⟨p, hp, _⟩ := h
  exact fun hnone => hnone p hp

theorem kfree_spec (h : LiveInv ps blocks pools live) (hb : b ∈ live) (hleft : PageLeft ps) :
    ∃ ps' blocks' pools', kfree ⟨sections ps, 9, pools⟩ b.addr = .ok ⟨sections ps', 9, pools'⟩ ∧
      LiveInv ps' blocks' pools' (live.filter (fun c => c.addr ≠ b.addr)) ∧
      GivenBack ⟨sections ps, 9, pools⟩ ⟨sections ps', 9, pools'⟩ b := by
  by_cases hn : b.n ≤ 512
  · rcases kfree_small h hb hn with ⟨_, hnone⟩ | hok
    · exact absurd hnone (not_free_of_pageLeft hleft)
    · exact hok
  · obtain ⟨ps', blocks', he, hinv⟩ := kfree_big h hb (by omega)
    exact ⟨ps', blocks', pools, he, hinv⟩

theorem kstep_kalloc_inv (hs : KInv s) (hn : n ≤ 2097152) (h : kstep s (.kalloc n) = some s') :
    KInv s' := by
  obtain ⟨heap, live⟩ := s
  obtain ⟨ps, blocks, pools, rfl, hinv⟩ := hs
  simp only [kstep] at h
  by_cases hsmall : n ≤ 512
  · rcases kalloc_small hinv hsmall with ⟨he, _⟩ | ⟨va, ps', blocks', pools', he, hinv'⟩
    · rw [he] at h
      cases h
    · rw [he] at h
      obtain rfl := Option.some.inj h
      exact ⟨ps', blocks', pools', rfl, hinv'⟩
  · rcases kalloc_big hinv (by omega) hn with he | ⟨va, ps', blocks', pools', he, hinv'⟩
    · rw [he] at h
      obtain rfl := Option.some.inj h
      exact ⟨ps, blocks, pools, rfl, hinv⟩
    · rw [he] at h
      obtain rfl := Option.some.inj h
      exact ⟨ps', blocks', pools', rfl, hinv'⟩

theorem kstep_kfree_inv (hs : KInv s) (hb : b ∈ s.live) (h : kstep s (.kfree b.addr) = some s') :
    KInv s' := by
  obtain ⟨heap, live⟩ := s
  obtain ⟨ps, blocks, pools, rfl, hinv⟩ := hs
  obtain ⟨ps', blocks', pools', he, hinv'⟩ : ∃ ps' blocks' pools',
      kfree ⟨sections ps, 9, pools⟩ b.addr = .ok ⟨sections ps', 9, pools'⟩ ∧
        LiveInv ps' blocks' pools' (live.filter (fun c => c.addr ≠ b.addr)) := by
    by_cases hn : b.n ≤ 512
    · rcases kfree_small hinv hb hn with ⟨he, _⟩ | ⟨ps', blocks', pools', he, hinv', -⟩
      · simp only [kstep, he] at h
        cases h
      · exact ⟨ps', blocks', pools', he, hinv'⟩
    · obtain ⟨ps', blocks', he, hinv', -⟩ := kfree_big hinv hb (by omega)
      exact ⟨ps', blocks', pools, he, hinv'⟩
  rw [kstep_kfree_of (s := ⟨⟨sections ps, 9, pools⟩, live⟩) he] at h
  obtain rfl := Option.some.inj h
  exact ⟨ps', blocks', pools', rfl, hinv'⟩

theorem kstep_inv (s : KSys) (op : KOp) (s' : KSys) (hs : KInv s) (hop : kok s op)
    (h : kstep s op = some s') : KInv s' := by
  cases op with
  | kalloc n => exact kstep_kalloc_inv hs hop.1 h
  | kfree addr =>
    obtain ⟨⟨b, hb, rfl⟩, -⟩ := hop
    exact kstep_kfree_inv hs hb h

theorem initSlab_kinv {words : BitmapT} {descs : Nat → Page} {base pages : Nat}
    (hbase : base % 4096 = 0) (hpages : 0 < pages) (hmanaged : managedPages pages < 524288)
    (htop : base + 4096 * pages + 262144 ≤ 2 ^ 48) (hdescs : ∀ i < pages, descs i = ⟨0, 0⟩)
    (hfit : DescsFit pages) {secs : List PageSection}
    (hinit : pageInit words descs base pages = .ok secs) (hslab : initSlab secs = .ok (some heap)) :
    KInv ⟨heap, []⟩ := by
  obtain rfl := PageRuns.init_eq hbase hpages hmanaged htop hinit
  obtain ⟨ps, blocks, pools, rfl, hheap, hsizes⟩ := initSlab_inv
    (init_placed words descs hbase hpages hmanaged htop)
    (init_secInv_of_fit words base hmanaged hdescs hfit) hslab
  exact ⟨ps, blocks, pools, rfl, hheap, hsizes, by simp, List.nodup_nil⟩

theorem LiveInv.eq_of_addr (h : LiveInv ps blocks pools live) {c : Block} (hb : b ∈ live)
    (hc : c ∈ live) (he : b.addr = c.addr) : b = c := by
  have hpos : ∀ n, 0 < capacity n := by
    intro n
    unfold capacity pagesOf
    split
    · exact Nat.two_pow_pos _
    · omega
  by_contra hne
  have hb' := hpos b.n
  have hc' := hpos c.n
  have hap := h.apart hb hc hne
  simp only [Block.extent, Extent.Apart] at hap
  omega

/-- `slab_own_addr` tells the blocks of the two allocators apart. -/
theorem LiveInv.slabOwnAddr_iff (h : LiveInv ps blocks pools live) (hb : b ∈ live) :
    slabOwnAddr ⟨sections ps, 9, pools⟩ b.addr = true ↔ b.n ≤ 512 := by
  by_cases hn : b.n ≤ 512
  · obtain ⟨_, hhi, _⟩ := poolIndex_spec hn
    exact iff_of_true (slabOwnAddr_obj h.heap hhi (by omega) (mem_usedOf hb hn)) hn
  · have hblock := (h.heap.runsLive _ (mem_runsOf ps hb (by omega))).1
    obtain ⟨hlen, _, hend⟩ := h.heap.sec.size _ hblock
    have hpage := (pageVa_slab h.heap.placed (runOf ps b).pos (by omega)).1
    rw [← h.run b hb (by omega)] at hpage
    exact iff_of_false (by simp [slabOwnAddr_page h.heap hpage]) hn

/-- The only way `kfree` of a live block can fail is that no page is left. -/
theorem LiveInv.kfree_error (h : LiveInv ps blocks pools live) (hb : b ∈ live) {f : Fault}
    (hf : kfree ⟨sections ps, 9, pools⟩ b.addr = .error f) : f = .assertion .slabAllocPool := by
  by_cases hn : b.n ≤ 512
  · rcases kfree_small h hb hn with ⟨he, _⟩ | ⟨_, _, _, he, _⟩
    · exact (Except.error.inj (he.symm.trans hf)).symm
    · exact absurd (he.symm.trans hf) (by simp)
  · obtain ⟨_, _, he, _⟩ := kfree_big h hb (by omega)
    exact absurd (he.symm.trans hf) (by simp)

/-- **The kernel heap is safe.** In every run from the heap `init_slab` leaves,
as long as pages remain: live blocks hold what was asked for and never overlap,
`slab_own_addr` is true exactly of those `slab_alloc` served, and `kfree` of a
live block gives it back to the allocator it came from and fails no assertion of
`slab_free` or `page_free`. The descriptors read as zero and fit the array. -/
theorem kmem_runs_safe (words : BitmapT) (descs : Nat → Page) (base pages : Nat)
    (hbase : base % 4096 = 0) (hpages : 0 < pages) (hmanaged : managedPages pages < 524288)
    (htop : base + 4096 * pages + 262144 ≤ 2 ^ 48) (hdescs : ∀ i < pages, descs i = ⟨0, 0⟩)
    (hfit : DescsFit pages) {secs : List PageSection}
    (hinit : pageInit words descs base pages = .ok secs) {heap : Kmem}
    (hslab : initSlab secs = .ok (some heap)) {s : KSys} (hrun : Steps kstep kok ⟨heap, []⟩ s) :
    s.live.Pairwise (fun a b => a.extent.Apart b.extent) ∧
    ∀ b ∈ s.live, b.n ≤ b.extent.len ∧
      (slabOwnAddr s.heap b.addr = true ↔ b.n ≤ 512) ∧
      (∀ f, kfree s.heap b.addr = .error f →
        f ≠ .assertion .slabFree ∧ f ≠ .assertion .pageFree) ∧
      (PageLeft (sect s.heap.secs) → ∃ s', kstep s (.kfree b.addr) = some s' ∧
        (∀ c, c ∈ s'.live ↔ c ∈ s.live ∧ c ≠ b) ∧ GivenBack s.heap s'.heap b) := by
  have hstart := initSlab_kinv hbase hpages hmanaged htop hdescs hfit hinit hslab
  obtain ⟨heap, live⟩ := s
  obtain ⟨ps, blocks, pools, rfl, hinv⟩ := hrun.invariant hstart kstep_inv
  refine ⟨hinv.nodup.pairwise_of_forall_ne (fun a ha b hb hne => hinv.apart ha hb hne), ?_⟩
  intro b hb
  refine ⟨le_capacity b.n, hinv.slabOwnAddr_iff hb, ?_, ?_⟩
  · intro f hf
    rw [hinv.kfree_error hb hf]
    exact ⟨by decide, by decide⟩
  · intro hleft
    obtain ⟨ps', blocks', pools', he, _, hback⟩ := kfree_spec hinv hb hleft
    refine ⟨_, kstep_kfree_of (s := ⟨⟨sections ps, 9, pools⟩, live⟩) he, ?_, hback⟩
    intro c
    simp only [List.mem_filter, decide_eq_true_eq]
    constructor
    · rintro ⟨hc, hne⟩
      exact ⟨hc, fun hcb => hne (by rw [hcb])⟩
    · rintro ⟨hc, hne⟩
      exact ⟨hc, fun haddr => hne (hinv.eq_of_addr hc hb haddr)⟩

theorem pageLeft_of_bit {p : Nat} (hbit : getBit ps.bitmap p = false)
    (hlim : p + 1 < bitmapSize ps.nrPages / 8 * 64) (hnr : (p + 1 : Int) ≤ ps.nrPages) :
    PageLeft ps := by
  refine ⟨p, ⟨?_, hlim⟩, hnr⟩
  intro q hlo hhi
  obtain rfl : q = p := by omega
  exact hbit

/-- The heap `init_slab` makes of 64 pages. -/
def smallHeap : Option Kmem := (initSlab (sections PageRuns.smallSection)).toOption.join

theorem initSlab_of_smallHeap (h : smallHeap = some heap) :
    initSlab (sections PageRuns.smallSection) = .ok (some heap) := by
  unfold smallHeap at h
  cases hi : initSlab (sections PageRuns.smallSection) with
  | error f => simp [hi, Except.toOption] at h
  | ok r => simpa [hi, Except.toOption] using h

theorem kmem_runs_safe_small :
    ∃ heap s, initSlab (sections PageRuns.smallSection) = .ok (some heap) ∧
      Steps kstep kok ⟨heap, []⟩ s ∧ s.live = [⟨0xffff000040002080, 100⟩] ∧
      slabOwnAddr s.heap 0xffff000040002080 = true ∧
      ∃ s', kstep s (.kfree 0xffff000040002080) = some s' ∧
        ⟨0xffff000040002080, 100⟩ ∉ s'.live ∧
        0xffff000040002080 ∈ (s'.heap.pools 6).cache.map SlabCache.obj := by
  have hstart : smallHeap.map (fun k => (getBit (sect k.secs).bitmap 40,
      bitmapSize (sect k.secs).nrPages, (sect k.secs).nrPages)) = some (false, 8, 63) := by
    decide +kernel
  have halloc : (smallHeap.bind (fun k => kstep ⟨k, []⟩ (.kalloc 100))).map (fun s =>
      (s.live, getBit (sect s.heap.secs).bitmap 40, bitmapSize (sect s.heap.secs).nrPages,
        (sect s.heap.secs).nrPages)) = some ([⟨0xffff000040002080, 100⟩], false, 8, 63) := by
    decide +kernel
  obtain ⟨heap, hheap, hk⟩ := Option.map_eq_some_iff.mp hstart
  simp only [Prod.mk.injEq] at hk
  have hslab := initSlab_of_smallHeap hheap
  rw [hheap, Option.bind_some] at halloc
  obtain ⟨s, hs, hl⟩ := Option.map_eq_some_iff.mp halloc
  simp only [Prod.mk.injEq] at hl
  have hleft : PageLeft (sect heap.secs) :=
    pageLeft_of_bit (p := 40) hk.1 (by rw [hk.2.1]; decide) (by rw [hk.2.2]; decide)
  have hleft' : PageLeft (sect s.heap.secs) :=
    pageLeft_of_bit (p := 40) hl.2.1 (by rw [hl.2.2.1]; decide) (by rw [hl.2.2.2]; decide)
  have hrun : Steps kstep kok ⟨heap, []⟩ s :=
    .tail (.kalloc 100) .refl ⟨by decide, hleft, fun h => absurd h (by decide)⟩ hs
  obtain ⟨_, hall⟩ := kmem_runs_safe (fun _ => 0#64) PageRuns.zeroDescs 0x40000000 64
    (by decide) (by decide) (by decide) (by decide) (fun _ _ => rfl) (by decide)
    PageRuns.pageInit_small hslab hrun
  obtain ⟨_, hown, _, hfree⟩ := hall ⟨0xffff000040002080, 100⟩ (by simp [hl.1])
  obtain ⟨s', hs', hmem, hback⟩ := hfree hleft'
  obtain ⟨node, hchain⟩ := hback.object (by decide)
  refine ⟨heap, s, hslab, hrun, hl.1, hown.mpr (by decide), s', hs',
    fun h => ((hmem _).mp h).2 rfl, ?_⟩
  rw [show poolIndex 100 = 6 by decide] at hchain
  simp [hchain]

end SpringOs.KmemRuns
