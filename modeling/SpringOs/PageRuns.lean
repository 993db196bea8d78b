import SpringOs.Lib.Ranges
import SpringOs.PageAlloc

/-!
Runs of the page allocator: any sequence of `page_allocn` and of `page_free` on
a page of a live block, from the section `page_init` leaves.

* `SecInv`: the bitmap and the descriptors against the live blocks;
* `pageFree_live`: `page_free` finds the block its pointer lies in;
* **`step_allocn`**, **`step_free`**: what a call does, under the invariant;
* `init_secInv`: the invariant holds at the start where the descriptors of the pages read as
  zero.
-/

namespace SpringOs.PageRuns
open Lib.Word Lib.Machine Lib.Ranges Bitmap Kernel PageAlloc
open Function (update_self update_of_ne)

variable {ps : PageSection} {i pos ptr count base pages : Nat} {a : Extent} {live : List Extent}
  {secs : List PageSection} {descs : Nat → Page}

/-! ## The system -/

/-- The allocator together with the blocks its clients hold, as ranges of page
indices. -/
structure Sys where
  secs : List PageSection
  live : List Extent

inductive Op
  | allocn (count : Nat)
  | free (ptr : Nat)
  deriving DecidableEq, Repr

def sect (secs : List PageSection) : PageSection := secs.headD emptySection

/-- The kernel virtual address of page `i` of the section. -/
def pageVa (secs : List PageSection) (i : Nat) : Nat := ptov ((sect secs).paBase + 4096 * i)

def indexOf (secs : List PageSection) (va : Nat) : Nat := u64 (vtop va - (sect secs).paBase) / 4096

def step (s : Sys) : Op → Option Sys
  | .allocn count =>
    match pageAllocn s.secs count with
    | .ok (some va, secs) => some ⟨secs, ⟨indexOf s.secs va, count⟩ :: s.live⟩
    | .ok (none, secs) => some ⟨secs, s.live⟩
    | .error _ => none
  | .free ptr =>
    match pageFree s.secs ptr with
    | .ok secs => some ⟨secs, s.live.filter (fun a => ¬ a.Has (indexOf s.secs ptr))⟩
    | .error _ => none

/-- The calls of a well-behaved client. -/
def ok (s : Sys) : Op → Prop
  | .allocn count => 1 ≤ count ∧ count ≤ 512
  | .free ptr => ∃ a ∈ s.live, ∃ i, a.Has i ∧ ptr = pageVa s.secs i

/-! ## The invariant -/

/-- Where the section lies: no page index overflows an `int`, no address leaves
the physical address space. -/
structure Placed (ps : PageSection) : Prop where
  small : limit ps ≤ 524288
  base : 0 < ps.paBase
  aligned : ps.paBase % 4096 = 0
  top : ps.paBase + 4096 * limit ps < 2 ^ 48

/-- The descriptors of the pages that can be handed out lie in front of these pages. -/
def DescsInside (ps : PageSection) : Prop :=
  ps.pagesPtr + 16 * (limit ps - 1) ≤ pageVa (sections ps) 0

/-- The live blocks: apart, with their bits set and their descriptors. -/
structure Blocks (ps : PageSection) (live : List Extent) : Prop where
  apart : live.Pairwise Extent.Apart
  size : ∀ a ∈ live, 1 ≤ a.len ∧ a.len ≤ 512 ∧ a.pos + a.len < limit ps
  held : ∀ a ∈ live, ∀ i, a.Has i → getBit ps.bitmap i = true
  desc : ∀ a ∈ live, ps.pages a.pos = ⟨ps.paBase + 4096 * a.pos, a.len⟩

/-- No other descriptor is in use, up to the last page that can be handed out: its own is the
only one `page_free` could find there. -/
structure SecInv (ps : PageSection) (live : List Extent) : Prop extends Blocks ps live where
  only : ∀ i, i + 2 < limit ps → (ps.pages i).pa ≠ 0 → ∃ a ∈ live, a.pos = i

theorem sect_sections (ps : PageSection) : sect (sections ps) = ps := rfl

/-- In a placed section, page `i` has a descriptor address and a virtual address
that do not wrap. -/
theorem Placed.pa_eq (h : Placed ps) (hi : i < limit ps) :
    u64 (ps.paBase + i32 (i * 4096)) = ps.paBase + 4096 * i := by
  have h1 := h.small
  have h2 := h.top
  rw [i32_of_lt (by omega) (by omega)]
  unfold u64
  omega

theorem Placed.pageVa_eq (h : Placed ps) (hi : i < limit ps) :
    pageVa (sections ps) i = ps.paBase + 4096 * i + kernelAddrMask := by
  have h2 := h.top
  unfold pageVa
  rw [sect_sections, ptov_of_lt (by omega)]

theorem Placed.indexOf_ptov (h : Placed ps) (hi : i < limit ps) :
    indexOf (sections ps) (ptov (ps.paBase + 4096 * i)) = i := by
  have h2 := h.top
  unfold indexOf
  rw [vtop_ptov (by omega), sect_sections]
  unfold u64
  omega

theorem Placed.indexOf_pageVa (h : Placed ps) (hi : i < limit ps) :
    indexOf (sections ps) (pageVa (sections ps) i) = i := by
  unfold pageVa
  exact h.indexOf_ptov hi

/-- The test of `page_free`: descriptor `pos` is in use and covers `ptr`. -/
def Covers (ps : PageSection) (ptr pos : Nat) : Prop :=
  (ps.pages pos).pa ≠ 0 ∧ ptov (ps.pages pos).pa ≤ ptr ∧
    ptr < u64 (ptov (ps.pages pos).pa + i32 ((ps.pages pos).count * 4096))

theorem covers_iff_of_desc (hp : Placed ps) (hmax : a.len ≤ 512) (hend : a.pos + a.len < limit ps)
    (hdesc : ps.pages pos = ⟨ps.paBase + 4096 * a.pos, a.len⟩) (hlt : i < limit ps) :
    Covers ps (pageVa (sections ps) i) pos ↔ a.Has i := by
  have htop := hp.top
  have hbase := hp.base
  have hmask : kernelAddrMask = 18446462598732840960 := rfl
  unfold Covers
  rw [hdesc, hp.pageVa_eq hlt]
  simp only
  rw [ptov_of_lt (by omega), i32_of_lt (by omega) (by omega)]
  unfold Extent.Has u64
  omega

theorem Blocks.covers_iff (hp : Placed ps) (hi : Blocks ps live) (ha : a ∈ live)
    (hlt : i < limit ps) : Covers ps (pageVa (sections ps) i) a.pos ↔ a.Has i :=
  covers_iff_of_desc hp (hi.size a ha).2.1 (hi.size a ha).2.2 (hi.desc a ha) hlt

/-- The scan of `page_free` ends at the first set bit whose descriptor covers the pointer. -/
theorem pageFreeScan_first (hsmall : limit ps ≤ 524288) (hlt : pos < limit ps)
    (hbit : getBit ps.bitmap pos = true) (hcovers : Covers ps ptr pos)
    (hother : ∀ q < pos, getBit ps.bitmap q = true → ¬ Covers ps ptr q) (fuel start : Nat)
    (hstart : start ≤ pos) (hfuel : limit ps < start + fuel) :
    pageFreeScan ps ptr fuel start = some pos := by
  have hlimit : limit ps = bitmapSize ps.nrPages / 8 * 64 := by unfold limit; rfl
  induction fuel generalizing start with
  | zero => omega
  | succ fuel ih =>
    unfold pageFreeScan
    rcases bitmapFindNext1_first ps.bitmap (bitmapSize ps.nrPages) start (by omega) (by omega) with
      ⟨_, hnone⟩ | ⟨q, hr, hlo, _, hset, hmin⟩
    · exact absurd hbit (hnone pos hstart (by omega))
    · have hle : q ≤ pos := by
        by_contra h
        exact hmin pos hstart (by omega) hbit
      simp only [hr, show (q : Int) ≠ -1 by omega, if_false, Int.toNat_natCast]
      by_cases he : q = pos
      · subst he
        rw [if_neg hcovers.1, if_pos hcovers.2]
      · have hnext := ih (q + 1) (by omega) (by omega)
        split
        · exact hnext
        · rename_i hne
          rw [if_neg fun h => hother q (by omega) hset ⟨hne, h⟩]
          exact hnext

theorem pageFreeScan_some {fuel start : Nat} (h : pageFreeScan ps ptr fuel start = some pos) :
    Covers ps ptr pos := by
  induction fuel generalizing start with
  | zero => cases h
  | succ fuel ih =>
    rw [pageFreeScan] at h
    simp only at h
    split at h
    · cases h
    · split at h
      · exact ih h
      · rename_i hne
        split at h
        · rename_i hcovers
          cases h
          exact ⟨hne, hcovers⟩
        · exact ih h

theorem pageFree_eq (hp : Placed ps) (hi : i < limit ps) :
    pageFree (sections ps) (pageVa (sections ps) i) =
      match pageFreeScan ps (pageVa (sections ps) i) (limit ps + 1) 0 with
      | none => .ok (sections ps)
      | some pos => .ok (sections (releaseAt ps pos)) := by
  have hal : pageVa (sections ps) i % 4096 = 0 := by
    have haligned := hp.aligned
    rw [hp.pageVa_eq hi]
    unfold kernelAddrMask
    omega
  have hlimit : limit ps = bitmapSize ps.nrPages / 8 * 64 := by unfold limit; rfl
  unfold pageFree
  rw [if_neg (by omega), hlimit]
  rfl

/-- **`page_free` finds the block** its pointer lies in. -/
theorem pageFree_live (hp : Placed ps) (hi : SecInv ps live) (ha : a ∈ live) (hai : a.Has i) :
    pageFree (sections ps) (pageVa (sections ps) i) = .ok (sections (releaseAt ps a.pos)) := by
  obtain ⟨hlen, _, hend⟩ := hi.size a ha
  have hlt : i < limit ps := by
    unfold Extent.Has at hai
    omega
  have hbit := hi.held a ha a.pos ⟨le_refl _, by omega⟩
  -- an earlier set bit is a page inside some block, or another block's head
  have hother : ∀ q < a.pos, getBit ps.bitmap q = true →
      ¬ Covers ps (pageVa (sections ps) i) q := by
    intro q hq _ hcovers
    obtain ⟨b, hb, rfl⟩ := hi.only q (by omega) hcovers.1
    have hbi := (hi.covers_iff hp hb hlt).1 hcovers
    rw [eq_of_has hi.apart hb ha hbi hai] at hq
    omega
  rw [pageFree_eq hp hlt, pageFreeScan_first hp.small (by omega) hbit
    ((hi.covers_iff hp ha hlt).2 hai) hother _ 0 (Nat.zero_le _) (by omega)]

/-! ## One step -/

@[simp] theorem limit_grant (ps : PageSection) (pos count : Nat) :
    limit (grant ps pos count) = limit ps := by
  unfold limit
  rfl

@[simp] theorem limit_releaseAt (ps : PageSection) (pos : Nat) :
    limit (releaseAt ps pos) = limit ps := by
  unfold limit
  rfl

@[simp] theorem grant_paBase (ps : PageSection) (pos count : Nat) :
    (grant ps pos count).paBase = ps.paBase := rfl

@[simp] theorem releaseAt_paBase (ps : PageSection) (pos : Nat) :
    (releaseAt ps pos).paBase = ps.paBase := rfl

theorem Placed.grant (h : Placed ps) (pos count : Nat) : Placed (grant ps pos count) :=
  ⟨by simpa using h.small, h.base, h.aligned, by simpa using h.top⟩

theorem Placed.releaseAt (h : Placed ps) (pos : Nat) : Placed (releaseAt ps pos) :=
  ⟨by simpa using h.small, h.base, h.aligned, by simpa using h.top⟩

theorem Blocks.apart_of_clear (h : Blocks ps live) (hcount : 1 ≤ count)
    (hclear : AreaClear ps.bitmap pos count) (ha : a ∈ live) : Extent.Apart ⟨pos, count⟩ a := by
  by_contra hap
  have hlen := (h.size a ha).1
  simp only [Extent.Apart] at hap
  have hset := h.held a ha (max pos a.pos) (by unfold Extent.Has; omega)
  have hzero := hclear (max pos a.pos) (by omega) (by omega)
  simp [hset] at hzero

theorem Blocks.grant (hp : Placed ps) (h : Blocks ps live) (hcount : 1 ≤ count) (hmax : count ≤ 512)
    (hfree : FreeArea ps.bitmap (bitmapSize ps.nrPages) count pos) :
    Blocks (grant ps pos count) (⟨pos, count⟩ :: live) := by
  obtain ⟨hclear, hend⟩ := hfree
  have hlim : limit ps = bitmapSize ps.nrPages / 8 * 64 := by unfold limit; rfl
  have hap := fun a (ha : a ∈ live) => h.apart_of_clear hcount hclear ha
  have hne : ∀ a ∈ live, a.pos ≠ pos := by
    intro a ha he
    have h1 := (h.size a ha).1
    rcases hap a ha with h2 | h2 <;> simp only at h2 <;> omega
  refine ⟨List.pairwise_cons.mpr ⟨hap, h.apart⟩, ?_, ?_, ?_⟩
  · intro a ha
    rcases List.mem_cons.mp ha with rfl | ha
    · exact ⟨hcount, hmax, by simp only [limit_grant]; omega⟩
    · simpa using h.size a ha
  · intro a ha i hai
    simp only [PageAlloc.grant, getBit_setBits, Bool.or_eq_true, decide_eq_true_eq]
    rcases List.mem_cons.mp ha with rfl | ha
    · exact .inl hai
    · exact .inr (h.held a ha i hai)
  · intro a ha
    simp only [PageAlloc.grant]
    rcases List.mem_cons.mp ha with rfl | ha
    · rw [update_self, hp.pa_eq (by omega)]
    · rw [update_of_ne (hne a ha), h.desc a ha]

theorem SecInv.grant (hp : Placed ps) (h : SecInv ps live) (hcount : 1 ≤ count) (hmax : count ≤ 512)
    (hfree : FreeArea ps.bitmap (bitmapSize ps.nrPages) count pos) :
    SecInv (grant ps pos count) (⟨pos, count⟩ :: live) where
  toBlocks := h.toBlocks.grant hp hcount hmax hfree
  only i hlt hi := by
    rw [limit_grant] at hlt
    simp only [PageAlloc.grant] at hi
    by_cases he : i = pos
    · exact ⟨_, List.mem_cons_self, he.symm⟩
    · rw [update_of_ne he] at hi
      obtain ⟨a, ha, rfl⟩ := h.only i hlt hi
      exact ⟨a, List.mem_cons_of_mem _ ha, rfl⟩

theorem SecInv.releaseAt {live' : List Extent} (h : SecInv ps live) (ha : a ∈ live)
    (hsub : live'.Sublist live) (hmem : ∀ b, b ∈ live' ↔ b ∈ live ∧ b ≠ a) :
    SecInv (releaseAt ps a.pos) live' := by
  have hhead : a.Has a.pos := ⟨le_refl _, by have := (h.size a ha).1; omega⟩
  have hout : ∀ b ∈ live', ¬ b.Has a.pos := by
    intro b hb hba
    obtain ⟨hb, hne⟩ := (hmem b).mp hb
    exact hne (eq_of_has h.apart hb ha hba hhead)
  have hpos : ∀ b ∈ live', b.pos ≠ a.pos := by
    intro b hb he
    have := (h.size b (hsub.subset hb)).1
    exact hout b hb ⟨by omega, by omega⟩
  refine ⟨⟨h.apart.sublist hsub, ?_, ?_, ?_⟩, ?_⟩
  · intro b hb
    simpa using h.size b (hsub.subset hb)
  · intro b hb i hbi
    have hne : i ≠ a.pos := by
      rintro rfl
      exact hout b hb hbi
    simp [PageAlloc.releaseAt, getBit_clearBit, hne, h.held b (hsub.subset hb) i hbi]
  · intro b hb
    simp only [PageAlloc.releaseAt]
    rw [update_of_ne (hpos b hb), h.desc b (hsub.subset hb)]
  · intro i hlt hi
    rw [limit_releaseAt] at hlt
    simp only [PageAlloc.releaseAt] at hi
    by_cases he : i = a.pos
    · simp [he] at hi
    · rw [update_of_ne he] at hi
      obtain ⟨b, hb, rfl⟩ := h.only i hlt hi
      exact ⟨b, (hmem b).mpr ⟨hb, fun hab => he (by rw [hab])⟩, rfl⟩

theorem mem_filter_has (h : live.Pairwise Extent.Apart) (ha : a ∈ live) (hai : a.Has i)
    (b : Extent) : b ∈ live.filter (fun b => ¬ b.Has i) ↔ b ∈ live ∧ b ≠ a := by
  simp only [List.mem_filter, decide_not, Bool.not_eq_true', decide_eq_false_iff_not]
  constructor
  · rintro ⟨hb, hn⟩
    exact ⟨hb, fun he => hn (he ▸ hai)⟩
  · rintro ⟨hb, hne⟩
    exact ⟨hb, fun hbi => hne (eq_of_has h hb ha hbi hai)⟩

/-- **An allocation** takes the first free area or changes nothing. -/
theorem step_allocn (hp : Placed ps) (live : List Extent) (hcount : 1 ≤ count)
    (hmax : count ≤ 512) :
    (step ⟨sections ps, live⟩ (.allocn count) = some ⟨sections ps, live⟩ ∧
      ∀ p, ¬ FreeArea ps.bitmap (bitmapSize ps.nrPages) count p) ∨
    ∃ pos, FirstFree ps count pos ∧ step ⟨sections ps, live⟩ (.allocn count) =
      some ⟨sections (grant ps pos count), ⟨pos, count⟩ :: live⟩ := by
  have hsmall := hp.small
  simp only [step]
  rcases pageAllocn_cases ps hcount hmax (by omega) with ⟨h, hnone⟩ | ⟨pos, hfree, h⟩
  · exact .inl ⟨by rw [h], hnone⟩
  · have hend := hfree.1.2
    have hlt : pos < limit ps := by
      unfold limit
      omega
    refine .inr ⟨pos, hfree, ?_⟩
    rw [h, hp.pa_eq hlt]
    simp only [hp.indexOf_ptov hlt]

theorem step_allocn_of {s : Sys} {va : Nat} (h : pageAllocn s.secs count = .ok (some va, secs)) :
    step s (.allocn count) = some ⟨secs, ⟨indexOf s.secs va, count⟩ :: s.live⟩ := by
  simp only [step, h]

theorem step_free_of {s : Sys} (h : pageFree s.secs ptr = .ok secs) :
    step s (.free ptr) =
      some ⟨secs, s.live.filter (fun a => ¬ a.Has (indexOf s.secs ptr))⟩ := by
  simp only [step, h]

/-- **A free** releases the block its pointer lies in. -/
theorem step_free (hp : Placed ps) (hi : SecInv ps live) (ha : a ∈ live) (hai : a.Has i) :
    step ⟨sections ps, live⟩ (.free (pageVa (sections ps) i)) =
      some ⟨sections (releaseAt ps a.pos), live.filter (fun b => ¬ b.Has i)⟩ := by
  obtain ⟨_, _, hend⟩ := hi.size a ha
  have hlt : i < limit ps := by
    unfold Extent.Has at hai
    omega
  rw [step_free_of (s := ⟨sections ps, live⟩) (pageFree_live hp hi ha hai),
    hp.indexOf_pageVa hlt]

/-! ## The start -/

def zeroDescs : Nat → Page := fun _ => ⟨0, 0⟩

theorem init_placed (words : BitmapT) (descs : Nat → Page) (hbase : base % 4096 = 0)
    (hpages : 0 < pages) (hmanaged : managedPages pages < 524288)
    (htop : base + 4096 * pages + 262144 ≤ 2 ^ 48) :
    Placed (initSection words descs base pages) := by
  have hm := metaPages_le hpages
  have hpos := metaPages_pos hpages
  have hlim := limit_init words descs base (pages_lt_of_managed hmanaged.le)
  refine ⟨?_, ?_, ?_, ?_⟩
  · rw [hlim]
    omega
  · unfold initSection
    simp only
    omega
  · unfold initSection
    simp only
    omega
  · rw [hlim]
    unfold initSection managedPages
    simp only
    omega

theorem init_descsInside (words : BitmapT) (descs : Nat → Page) (hpages : 0 < pages)
    (hmanaged : managedPages pages < 524288) (htop : base + 4096 * pages + 262144 ≤ 2 ^ 48)
    (hfit : DescsFit pages) : DescsInside (initSection words descs base pages) := by
  have hmeta := metaPages_le hpages
  unfold DescsInside
  rw [limit_init words descs base (pages_lt_of_managed hmanaged.le)]
  change ptov (base + (pages + 63) / 64 * 8) + _ ≤ ptov (base + 4096 * metaPages pages + 4096 * 0)
  rw [ptov_of_lt (by omega), ptov_of_lt (by omega)]
  unfold DescsFit searchedPages at hfit
  unfold metaPages at hfit ⊢
  omega

theorem init_eq {words : BitmapT} (hbase : base % 4096 = 0) (hpages : 0 < pages)
    (hmanaged : managedPages pages < 524288) (htop : base + 4096 * pages + 262144 ≤ 2 ^ 48)
    (hinit : pageInit words descs base pages = .ok secs) :
    secs = sections (initSection words descs base pages) := by
  have heq := pageInit_eq words descs hbase hpages (pages_lt_of_managed hmanaged.le) (by omega)
  exact Except.ok.inj (hinit.symm.trans heq)

theorem init_blocks (words : BitmapT) (descs : Nat → Page) (base pages : Nat) :
    Blocks (initSection words descs base pages) [] :=
  ⟨List.Pairwise.nil, by simp, by simp, by simp⟩

theorem init_secInv {words : BitmapT}
    (hzero : ∀ i, i + 2 < limit (initSection words descs base pages) → descs i = ⟨0, 0⟩) :
    SecInv (initSection words descs base pages) [] where
  toBlocks := init_blocks words descs base pages
  only i hi hne := absurd (congrArg Page.pa (hzero i hi)) hne

/-- Where the descriptors fit it is enough that the array reads as zero. -/
theorem init_secInv_of_fit (words : BitmapT) (base : Nat) (hmanaged : managedPages pages < 524288)
    (hdescs : ∀ i < pages, descs i = ⟨0, 0⟩) (hfit : DescsFit pages) :
    SecInv (initSection words descs base pages) [] := by
  refine init_secInv fun i hi => hdescs i ?_
  rw [limit_init words descs base (pages_lt_of_managed hmanaged.le)] at hi
  unfold DescsFit searchedPages at hfit
  omega

/-- 64 pages at 1 GiB, 63 of them managed: the section of the concrete runs. -/
def smallSection : PageSection := initSection (fun _ => 0#64) zeroDescs 0x40000000 64

theorem pageInit_small :
    pageInit (fun _ => 0#64) zeroDescs 0x40000000 (64 : Nat) = .ok (sections smallSection) :=
  pageInit_eq _ _ (by decide) (by decide) (by decide) (by decide)

end SpringOs.PageRuns
