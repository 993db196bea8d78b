import SpringOs.ExecImage
import SpringOs.KmemRuns

/-!
`exec` with the allocators of the kernel. All that it asks for are whole pages, so that `kalloc`
goes to the page allocator as `page_allocn` and `page_alloc` do, and the blocks it gets are live
blocks of one section.

* **`Answered`**: the answers of the allocators to requests for blocks and for tables, in any order;
* **`Answered.supply`**: they are what `exec` relies on;
* **`exec_image_answered`**: with them the image is right exactly if the segments load.
-/

namespace SpringOs.Exec
open Kernel Lib.Word Lib.Bytes Lib.Machine Lib.Ranges PageTable Ramdisk
open Bitmap (FreeArea bitmapSize)
open PageAlloc (PageSection sections limit grant pageAllocn pageAllocn_cases)
open PageRuns (Blocks)
open SlabAlloc (Kmem)

/-! ## Requests for pages -/

/-- `page_allocn` returns a block. -/
def PagesAllocated (k : Kmem) (count va : Nat) (k' : Kmem) : Prop :=
  ∃ secs, pageAllocn k.secs count = .ok (some va, secs) ∧ k' = { k with secs := secs }

theorem kalloc_pages {k k' : Kmem} {count va : Nat} (hcount : 1 ≤ count) (hmax : count ≤ 512) :
    SlabAlloc.kalloc k (4096 * count) = .ok (some va, k') ↔ PagesAllocated k count va k' := by
  have hpages : KmemRuns.pagesOf (4096 * count) = count := by
    unfold KmemRuns.pagesOf
    omega
  unfold SlabAlloc.kalloc PagesAllocated
  rw [if_neg (by omega), KmemRuns.kallocPages_eq (by omega), hpages]
  constructor
  · intro h
    obtain ⟨⟨_, secs⟩, hrun, hk⟩ := ok_of_bind h
    cases hk
    exact ⟨secs, hrun, rfl⟩
  · rintro ⟨secs, hrun, rfl⟩
    rw [hrun]
    rfl

/-- What the allocators answer: `kalloc` and `page_allocn` to requests of these sizes, `page_alloc`
to the requests for tables. -/
inductive Answered : Kmem → List Nat → List (Option Nat) → List Nat → Kmem → Prop
  | done (k : Kmem) : Answered k [] [] [] k
  | block {k k' k'' : Kmem} {count va : Nat} {sizes : List Nat} {answers : List (Option Nat)}
      {tables : List Nat} : 1 ≤ count → count ≤ 512 →
      SlabAlloc.kalloc k (4096 * count) = .ok (some va, k') ∨ PagesAllocated k count va k' →
      Answered k' sizes answers tables k'' →
      Answered k (4096 * count :: sizes) (some (vtop va) :: answers) tables k''
  | table {k k' k'' : Kmem} {va : Nat} {sizes : List Nat} {answers : List (Option Nat)}
      {tables : List Nat} : PagesAllocated k 1 va k' →
      Answered k' sizes answers tables k'' →
      Answered k sizes answers (vtop va :: tables) k''

def physical (base : Nat) (b : Extent) : Extent := ⟨base + 4096 * b.pos, 4096 * b.len⟩

theorem physical_apart {base : Nat} {a b : Extent} (h : a.Apart b) :
    (physical base a).Apart (physical base b) := by
  unfold Extent.Apart physical at *
  dsimp only
  omega

theorem page_physical (base pos : Nat) : page (base + 4096 * pos) = physical base ⟨pos, 1⟩ := rfl

/-! ## What `exec` relies on -/

section supply
variable {ps : PageSection} {live : List Extent} {k k' : Kmem} {sizes : List Nat}
  {answers : List (Option Nat)} {tables : List Nat}

theorem grant_of_pageAllocn (hp : PageRuns.Placed ps) {count va : Nat} {secs : List PageSection}
    (hcount : 1 ≤ count) (hmax : count ≤ 512)
    (h : pageAllocn (sections ps) count = .ok (some va, secs)) :
    ∃ pos, FreeArea ps.bitmap (bitmapSize ps.nrPages) count pos ∧
      secs = sections (grant ps pos count) ∧ vtop va = ps.paBase + 4096 * pos := by
  have hsmall := hp.small
  have htop := hp.top
  rcases pageAllocn_cases ps hcount hmax (by omega) with ⟨he, -⟩ | ⟨pos, hfree, he⟩
  · cases he.symm.trans h
  · have hlt := Heap.FreeArea.lt_limit hfree.1
    cases he.symm.trans h
    rw [hp.pa_eq (by omega), vtop_ptov (by omega)]
    exact ⟨pos, hfree.1, rfl, rfl⟩

/-- **All answers** lie in the section, apart from each other and from what was live before. -/
theorem Answered.blocks (h : Answered k sizes answers tables k') (hk : k.secs = sections ps)
    (hp : PageRuns.Placed ps) (hb : Blocks ps live) :
    (∀ e ∈ granted answers sizes, e.pos + e.len ≤ ps.paBase + 4096 * limit ps) ∧
    (granted answers sizes ++ tables.map page ++ live.map (physical ps.paBase)).Pairwise
      Extent.Apart := by
  induction h generalizing ps live with
  | done k => exact ⟨nofun, hb.apart.map _ fun _ _ => physical_apart⟩
  | @block _ _ _ count _ _ _ _ hcount hmax hrun _ ih =>
    rw [kalloc_pages hcount hmax, or_self] at hrun
    obtain ⟨secs, hrun, rfl⟩ := hrun
    rw [hk] at hrun
    obtain ⟨pos, hfree, rfl, hva⟩ := grant_of_pageAllocn hp hcount hmax hrun
    have hgrant := hb.grant hp hcount hmax hfree
    have hend := (hgrant.size ⟨pos, count⟩ List.mem_cons_self).2.2
    obtain ⟨hrest, hapart⟩ := ih rfl (hp.grant pos count) hgrant
    rw [PageRuns.limit_grant] at hend hrest
    rw [hva]
    refine ⟨?_, List.perm_middle.pairwise hapart fun hab => Or.symm hab⟩
    rintro e (_ | ⟨_, he⟩)
    · dsimp only at hend ⊢
      omega
    · exact hrest e he
  | table hrun _ ih =>
    obtain ⟨secs, hrun, rfl⟩ := hrun
    rw [hk] at hrun
    obtain ⟨pos, hfree, rfl, hva⟩ := grant_of_pageAllocn hp (le_refl 1) (by decide) hrun
    obtain ⟨hrest, hapart⟩ := ih rfl (hp.grant pos 1) (hb.grant hp (le_refl 1) (by decide) hfree)
    rw [PageRuns.limit_grant] at hrest
    rw [hva, List.map_cons, page_physical]
    refine ⟨hrest, (List.perm_middle.trans ?_).pairwise hapart fun hab => Or.symm hab⟩
    rw [List.append_assoc, List.append_assoc]
    exact List.perm_middle.symm

/-- The tables of a process lie in blocks that are live. -/
def TablesLive (root base : Nat) (mem : Nat → Nat → Pte) (live : List Extent) : Prop :=
  ∀ r q p, IsTable mem root r q p → ∃ b ∈ live, (physical base b).pos ≤ p ∧
    p + 4096 ≤ (physical base b).pos + (physical base b).len

/-- **The blocks of `exec`** are as it relies on, whatever was allocated and freed before. -/
theorem Answered.supply {root : Nat} {pt : PtState} (h : Answered k sizes answers pt.free k')
    (hk : k.secs = sections ps) (hp : PageRuns.Placed ps) (hb : Blocks ps live)
    (hlive : TablesLive root ps.paBase pt.mem live)
    (hlow : ps.paBase + 4096 * limit ps ≤ 68719476736) :
    Supply root pt (granted answers sizes) := by
  obtain ⟨hend, hapart⟩ := h.blocks hk hp hb
  obtain ⟨hnew, -, hold⟩ := List.pairwise_append.1 hapart
  obtain ⟨hgranted, -, hfree⟩ := List.pairwise_append.1 hnew
  refine ⟨hgranted, fun e he => ⟨fun {r q p} hp => ?_, fun p hp => ?_⟩, fun e he => ?_⟩
  · obtain ⟨b, hb, hlo, hhi⟩ := hlive r q p hp
    have hbeside := hold e (List.mem_append_left _ he) _ (List.mem_map_of_mem hb)
    unfold Extent.Apart page at *
    dsimp only
    omega
  · exact Or.symm (hfree e he _ (List.mem_map_of_mem hp))
  · exact (hend e he).trans hlow

end supply

/-! ## `exec` -/

/-- **`exec` with the kernel's allocators**, whatever they gave out and took back before: the
segments, the stack and the heap are what `kalloc` and `page_allocn` answer, the tables what
`page_alloc` does in between. -/
theorem exec_image_answered {disk : Nat → Byte} {path : List Byte} {argv : List Arg}
    {inode root : Nat} {st st' : ExecState} {ps : PageSection} {live : List Extent} {k k' : Kmem}
    (hopen : ramdiskOpen (some disk) (cstr path) = .ok inode)
    (hfile : fSize disk inode ≤ ramdiskSize) (hst : Tables root st.pt)
    (hflat : Flat root st.pt.mem) (hk : k.secs = sections ps) (hp : PageRuns.Placed ps)
    (hb : Blocks ps live) (hlive : TablesLive root ps.paBase st.pt.mem live)
    (hlow : ps.paBase + 4096 * limit ps ≤ 68719476736)
    (hanswers : Answered k ((loadHdrs disk inode).map mapSize ++ [stackSize] ++ [sysProcHeapSize])
      st.answers st.pt.free k')
    (hargs : ArgsAside disk inode root argv st)
    (hrun : exec (some disk) path (some argv) root st = .ok (0, st')) :
    ImageRight disk inode root st'.pt.mem ↔ Loads disk inode st := by
  have hall := hanswers.supply hk hp hb hlive hlow
  have hsupply := hall.sublist (granted_sublist st.answers _ [sysProcHeapSize])
  exact image_iff_loads hopen hfile hst hflat hsupply hargs hrun

end SpringOs.Exec
