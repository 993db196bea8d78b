import SpringOs.KallocSize
import SpringOs.Kobject

/-!
`create_pma_normal` of `uspace/pma.c` over the kernel heap: a `struct pma` from the slabs and
its memory from the page allocator.

* **`createPmaNormal`**: the function;
* `createPmaNormal_world`: it answers as `Kobject.createPmaNormal`, which leaves the heap out;
* `kalloc_object`, `kalloc_ne`: a small block, and that it is missing afterwards;
* `create_pma_iff`: the function is right only where it refuses the size at once, or does not
  return. `pend` is computed from `psize` twice, and the object is lost when there are no pages.
-/

namespace SpringOs.PmaCreate
open Lib.Word Lib.Machine Lib.Ranges Bitmap Kernel PageAlloc SlabAlloc Heap KmemRuns KallocSize
open Kobject (PmaCreateArg ProcMem CreateEnv World pmaRight)
open PageRuns (sect pageVa)

/-- `struct pma`, at the address `addr`; its kobject is not modelled. -/
structure Pma where
  addr : Nat
  pstart : Nat
  pend : Nat
  psize : Nat
  deriving DecidableEq, Repr

def sizeofPma : Nat := 96

/-- `create_pma_normal`: the error or the pma with its right, and the heap. `kallocz` clears
memory whose contents are not modelled. -/
def createPmaNormal (k : Kmem) (args : PmaCreateArg) :
    Except Fault (Except Int (Pma × UInt32) × Kmem) :=
  let cnt := args.size / 4096
  if args.size = 0 ∨ args.size % 4096 ≠ 0 then .ok (.error (-einval), k)
  else do
    let (p, k) ← kalloc k sizeofPma
    match p with
    | none => .ok (.error (-enomem), k)
    | some p => do
      let (va, secs) ← pageAllocn k.secs (i32 cnt)
      let pstart := va.getD 0
      if pstart = 0 then .ok (.error (-enomem), { k with secs := secs })
      else
        let psize := u64 (cnt * 4096)
        .ok (.ok (⟨p, pstart, u64 (psize + psize), psize⟩, pmaRight), { k with secs := secs })

/-! ## The kobject -/

/-- What a creation finds around it where the heap is `k`: whether `kallocz` has an object and
`page_allocn` the pages after it. -/
def heapEnv (k : Kmem) (args : PmaCreateArg) (proc : Option ProcMem) : CreateEnv where
  arg := args
  object := match kalloc k sizeofPma with
    | .ok (some _, _) => true
    | _ => false
  pages := match kalloc k sizeofPma with
    | .ok (_, k) => match pageAllocn k.secs (i32 (args.size / 4096 : Nat)) with
      | .ok (va, _) => va.getD 0 != 0
      | .error _ => false
    | .error _ => false
  proc := proc

/-- A call that returns does to the kobjects what `Kobject.createPmaNormal` does there. -/
theorem createPmaNormal_world {k k' : Kmem} {args : PmaCreateArg}
    {ret : Except Int (Pma × UInt32)} (h : createPmaNormal k args = .ok (ret, k')) (w : World)
    (proc : Option ProcMem) :
    Kobject.createPmaNormal w (heapEnv k args proc) =
      match ret with
      | .ok (_, right) => (.ok (w.nobj, right), w.addKobject 0 .pma)
      | .error e => (.error e, w) := by
  by_cases hsize : args.size = 0 ∨ args.size % 4096 ≠ 0
  · rw [createPmaNormal, if_pos hsize] at h
    cases h
    exact if_pos hsize
  · rw [createPmaNormal, if_neg hsize] at h
    have hworld : Kobject.createPmaNormal w (heapEnv k args proc) = _ := if_neg hsize
    rw [hworld]
    obtain ⟨⟨p, k1⟩, halloc, h⟩ := ok_of_bind h
    cases p with
    | none =>
      cases h
      simp [heapEnv, halloc]
    | some p =>
      obtain ⟨⟨va, secs⟩, hpages, h⟩ := ok_of_bind h
      have hobject : (heapEnv k args proc).object = true := by simp only [heapEnv, halloc]
      have hanswer : (heapEnv k args proc).pages = (va.getD 0 != 0) := by
        simp only [heapEnv, halloc, hpages]
      simp only at h
      split_ifs at h with hnull
      · cases h
        simp [hobject, hanswer, hnull]
      · cases h
        simp [hobject, hanswer, hnull]

/-! ## What a call should do -/

/-- A pma that is returned describes as many bytes as were asked for, all of them free before
and marked after the call; an error leaves the heap as it was. -/
def PmaSound (k : Kmem) (args : PmaCreateArg) : Prop :=
  ∀ ret k', createPmaNormal k args = .ok (ret, k') →
    match ret with
    | .ok (p, _) => p.psize = args.size ∧ p.pend = p.pstart + p.psize ∧
        ∀ x, p.pstart ≤ x → x < p.pend → Free k x ∧ Marked k' x
    | .error _ => k' = k

/-- The pool has no object left, and there is no page for a slab. -/
def Exhausted (k : Kmem) (i : Nat) : Prop :=
  (k.pools i).cache = [] ∧ (k.pools i).partials = [] ∧
    ∀ p, ¬ FreeArea (sect k.secs).bitmap (bitmapSize (sect k.secs).nrPages) 1 p

/-- The size is refused at once, or the call stops the kernel: `page_allocn` calls `exit()`
when it is asked for more than 512 pages, `slab_alloc_pool` asserts that there is a page. -/
def NotCreated (k : Kmem) (args : PmaCreateArg) : Prop :=
  args.size = 0 ∨ args.size % 4096 ≠ 0 ∨ 512 < i32 (args.size / 4096 : Nat) ∨
    Exhausted k (poolIndex sizeofPma)

variable {ps : PageSection} {blocks : List Extent} {pools : Nat → SlabPool} {live : List Block}

/-- `slab_alloc_pool` fails only where the pool has nothing left. -/
theorem slabAllocPool_empty (h : LiveInv ps blocks pools live) {i : Nat} (hi : i < 9) {f : Fault}
    (hfail : slabAllocPool ⟨sections ps, 9, pools⟩ i = .error f) :
    (pools i).cache = [] ∧ (pools i).partials = [] := by
  rw [slabAllocPool] at hfail
  cases hcache : (pools i).cache with
  | cons c rest =>
    rw [hcache] at hfail
    cases hfail
  | nil =>
    rw [hcache] at hfail
    cases hpart : (pools i).partials with
    | cons s rest =>
      have hrun := reallocLoop_take h.heap hi hpart 1
      cases hrun.symm.trans hfail
    | nil => exact ⟨rfl, rfl⟩

/-- `kalloc` of a small size returns an object exactly if its pool is not exhausted. -/
theorem kalloc_object (h : LiveInv ps blocks pools live) {n : Nat} (hn : n ≤ 512) :
    Exhausted ⟨sections ps, 9, pools⟩ (poolIndex n) ∧
        (∃ f, kalloc ⟨sections ps, 9, pools⟩ n = .error f) ∨
      ¬ Exhausted ⟨sections ps, 9, pools⟩ (poolIndex n) ∧
        ∃ va ps' blocks' pools', kalloc ⟨sections ps, 9, pools⟩ n =
            .ok (some va, ⟨sections ps', 9, pools'⟩) ∧
          LiveInv ps' blocks' pools' (⟨va, n⟩ :: live) := by
  obtain ⟨-, hhi, -⟩ := poolIndex_spec hn
  rcases kalloc_small h hn with ⟨hfail, hnone⟩ | ⟨va, ps', blocks', pools', hrun, hinv⟩
  · refine .inl ⟨?_, _, hfail⟩
    rw [kalloc_pool h hn] at hfail
    cases hpool : slabAllocPool ⟨sections ps, 9, pools⟩ (poolIndex n) with
    | error f =>
      obtain ⟨hcache, hpart⟩ := slabAllocPool_empty h hhi hpool
      exact ⟨hcache, hpart, hnone⟩
    | ok r =>
      rw [hpool] at hfail
      cases hfail
  · refine .inr ⟨?_, va, ps', blocks', pools', hrun, hinv⟩
    rintro ⟨hcache, hpart, hnone⟩
    rw [kalloc_pool h hn] at hrun
    obtain ⟨r, hpool, -⟩ := ok_of_bind hrun
    rcases slabAllocPool_refill h.heap hhi hcache hpart with ⟨hfail, -⟩ | ⟨pos, -, hfree, -⟩
    · cases hfail.symm.trans hpool
    · exact hnone pos hfree

/-- A heap from which a block was taken is not the heap before. -/
theorem kalloc_ne (h : LiveInv ps blocks pools live) {n : Nat} (hpos : 0 < n) (hn : n ≤ 2097152)
    {va : Nat} {k : Kmem} (he : kalloc ⟨sections ps, 9, pools⟩ n = .ok (some va, k)) :
    k ≠ ⟨sections ps, 9, pools⟩ := by
  obtain ⟨hfree, hmarked⟩ := kalloc_marks h hn he (x := va) ⟨le_refl _, by simp only; omega⟩
  rintro rfl
  exact not_marked_of_free h.heap hfree hmarked

/-- A pma of a page-aligned size: the pages start in the direct map, so that the end computed
from the size alone is never theirs. -/
theorem pend_ne {p : Nat} (hp : PageRuns.Placed ps) (hlt : p < limit ps) {size : Nat} :
    u64 ((size : Int) + size) ≠ pageVa (sections ps) p + size := by
  rw [hp.pageVa_eq hlt]
  unfold u64 kernelAddrMask
  omega

theorem createPmaNormal_taken {args : PmaCreateArg} (hword : args.size < 2 ^ 64)
    (hsize : ¬ (args.size = 0 ∨ args.size % 4096 ≠ 0)) {k : Kmem} {va : Nat} {secs nr pools'}
    (hrun : kalloc k sizeofPma = .ok (some va, ⟨secs, nr, pools'⟩)) :
    createPmaNormal k args = (pageAllocn secs (i32 (args.size / 4096 : Nat)) >>= fun r =>
      if r.1.getD 0 = 0 then .ok (.error (-enomem), ⟨r.2, nr, pools'⟩)
      else .ok (.ok (⟨va, r.1.getD 0, u64 ((args.size : Int) + args.size), args.size⟩,
        pmaRight), ⟨r.2, nr, pools'⟩)) := by
  have hpsize : u64 ((args.size / 4096 : Nat) * 4096) = args.size := by
    unfold u64
    omega
  rw [createPmaNormal, if_neg hsize, hrun]
  simp only [hpsize]
  rfl

theorem pmaSound_iff (h : LiveInv ps blocks pools live) {args : PmaCreateArg}
    (hword : args.size < 2 ^ 64) :
    PmaSound ⟨sections ps, 9, pools⟩ args ↔ NotCreated ⟨sections ps, 9, pools⟩ args := by
  unfold NotCreated
  by_cases hbad : args.size = 0 ∨ args.size % 4096 ≠ 0
  · refine iff_of_true (fun ret k' he => ?_) (by tauto)
    rw [createPmaNormal, if_pos hbad] at he
    cases he
    rfl
  · rcases kalloc_object h (show sizeofPma ≤ 512 by decide) with
      ⟨hex, f, hfail⟩ | ⟨hleft, va, ps', blocks', pools', hrun, hinv⟩
    · refine iff_of_true (fun ret k' he => ?_) (.inr (.inr (.inr hex)))
      rw [createPmaNormal, if_neg hbad, hfail] at he
      cases he
    · have hne := kalloc_ne h (by decide) (by decide) hrun
      have hbody := createPmaNormal_taken hword hbad hrun
      by_cases hexit : 512 < i32 (args.size / 4096 : Nat)
      · refine iff_of_true (fun ret k' he => ?_) (.inr (.inr (.inl hexit)))
        rw [hbody, pageAllocn, if_pos hexit] at he
        cases he
      · refine iff_of_false (fun hsound => ?_) (by tauto)
        have hint : -2147483648 ≤ i32 (args.size / 4096 : Nat) := by
          unfold i32
          omega
        rcases pageAllocn_int hinv.heap.placed hint with
          ⟨hstop, -⟩ | ⟨hnone, -⟩ | ⟨-, p, hp, secs, hsome⟩
        · rw [pageAllocn, if_neg hexit] at hstop
          cases hstop
        · refine hne (hsound (.error (-enomem)) _ ?_)
          rw [hbody, hnone]
          rfl
        · have hpos : pageVa (sections ps') p ≠ 0 := by
            rw [hinv.heap.placed.pageVa_eq hp]
            unfold kernelAddrMask
            omega
          rw [hsome] at hbody
          change _ = (if pageVa (sections ps') p = 0 then _ else _) at hbody
          rw [if_neg hpos] at hbody
          exact pend_ne hinv.heap.placed hp (hsound _ _ hbody).2.1

/-- **`create_pma_normal`**, in every state of the heap that runs of `kalloc` and `kfree`
reach: it does what it should exactly where it returns no pma and takes nothing. -/
theorem create_pma_iff (words : BitmapT) (descs : Nat → Page) (base pages : Nat)
    (hbase : base % 4096 = 0) (hpages : 0 < pages) (hmanaged : managedPages pages < 524288)
    (htop : base + 4096 * pages + 262144 ≤ 2 ^ 48) (hdescs : ∀ i < pages, descs i = ⟨0, 0⟩)
    (hfit : DescsFit pages) {secs : List PageSection}
    (hinit : pageInit words descs base pages = .ok secs) {heap : Kmem}
    (hslab : initSlab secs = .ok (some heap)) {s : KSys}
    (hrun : Steps kstep kokSound ⟨heap, []⟩ s) (args : PmaCreateArg) (hword : args.size < 2 ^ 64) :
    PmaSound s.heap args ↔ NotCreated s.heap args := by
  have hstart := initSlab_kinv hbase hpages hmanaged htop hdescs hfit hinit hslab
  obtain ⟨heap, live⟩ := s
  obtain ⟨ps, blocks, pools, rfl, hinv⟩ := hrun.invariant hstart kstep_sound_inv
  exact pmaSound_iff hinv hword

theorem create_pma_misaligned :
    ∃ heap, initSlab (sections PageRuns.smallSection) = .ok (some heap) ∧
      PmaSound heap ⟨0, 4097⟩ := by
  have hsome : smallHeap.isSome = true := by decide +kernel
  obtain ⟨heap, hheap⟩ := Option.isSome_iff_exists.mp hsome
  have hslab := initSlab_of_smallHeap hheap
  exact ⟨heap, hslab, (create_pma_iff (fun _ => 0#64) PageRuns.zeroDescs 0x40000000 64 (by decide)
    (by decide) (by decide) (by decide) (fun _ _ => rfl) (by decide) PageRuns.pageInit_small hslab
    .refl ⟨0, 4097⟩ (by decide)).2 (.inr (.inl (by decide)))⟩

/-- A pma of one page ends at 8192, and a request for 512 pages, which fails, leaves an object
of 128 bytes behind: the next one is no longer the first. -/
theorem create_pma_wrong_end :
    (smallHeap.bind fun k => (createPmaNormal k ⟨0, 4096⟩).toOption.bind fun r =>
      r.1.toOption.map fun p => (p.1.pstart, p.1.pend, p.1.psize)) =
        some (0xffff000040003000, 8192, 4096) ∧
    (smallHeap.bind fun k => (createPmaNormal k ⟨0, 2097152⟩).toOption.bind fun r =>
      (kalloc k 128).toOption.bind fun a => (kalloc r.2 128).toOption.map fun b =>
        (r.1.toOption.isSome, a.1, b.1)) =
        some (false, some 0xffff000040002080, some 0xffff000040002100) := by
  decide +kernel

end SpringOs.PmaCreate
