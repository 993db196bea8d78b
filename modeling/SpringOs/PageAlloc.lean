import SpringOs.Bitmap
import SpringOs.Kernel
import SpringOs.Lib.Machine

/-!
`src/page.c`: the page allocator, and what holds of it over whole runs.
-/

namespace SpringOs.PageAlloc
open Lib.Word Lib.Machine Bitmap Kernel

/-- `struct page`: 16 bytes. -/
structure Page where
  pa : Nat
  count : Int
  deriving DecidableEq, Repr

/-- `struct page_section`, with the memory its two pointers lead to: the words
of the bitmap and the page descriptors. -/
structure PageSection where
  paBase : Nat
  vaBase : Nat
  nrPages : Int
  free : Int
  bitmapPtr : Nat
  pagesPtr : Nat
  bitmap : BitmapT
  pages : Nat → Page

/-- An unused element of `page_sections`: all zero. -/
def emptySection : PageSection := ⟨0, 0, 0, 0, 0, 0, fun _ => 0#64, fun _ => ⟨0, 0⟩⟩

/-- `page_section_init`. `words` and `descs` are what the memory of the section
held before; only the bitmap is cleared. -/
def pageSectionInit (words : BitmapT) (descs : Nat → Page) (base : Nat) (pages : Int) :
    Except Fault PageSection :=
  if base % 4096 ≠ 0 then .error (.assertion .pageSectionInit)
  else if pages ≤ 0 then .error (.assertion .pageSectionInit)
  else
    let base1 := u64 (base + bitmapSize pages)
    let base2 := u64 (base1 + pages * 16)
    let base3 := alignUp base2 4096
    let nrPages := i32 (pages - (u64 (base3 - base) / 4096 : Nat))
    .ok { paBase := base3, vaBase := ptov base3, nrPages := nrPages, free := nrPages,
          bitmapPtr := ptov base, pagesPtr := ptov base1,
          bitmap := bitmapInit words (bitmapSize pages) 0#64, pages := descs }

/-- `page_init`: the first of the six sections. -/
def pageInit (words : BitmapT) (descs : Nat → Page) (base : Nat) (pages : Int) :
    Except Fault (List PageSection) :=
  (pageSectionInit words descs base pages).map (· :: List.replicate 5 emptySection)

def pageAllocnSect (ps : PageSection) (count : Int) : Option Page × PageSection :=
  let pos := bitmapFindNext0Area ps.bitmap (bitmapSize ps.nrPages) 0 count
  if pos = -1 then (none, ps)
  else
    let page : Page := ⟨u64 (ps.paBase + i32 (pos * 4096)), count⟩
    (some page,
      { ps with
        bitmap := bitmapSetBits ps.bitmap pos.toNat count.toNat
        pages := Function.update ps.pages pos.toNat page
        free := i32 (ps.free - count) })

/-- `__page_allocn`: the first section that has room. -/
def pageAllocnLoop (count : Int) : List PageSection → Option Page × List PageSection
  | [] => (none, [])
  | ps :: rest =>
    match pageAllocnSect ps count with
    | (some page, ps') => (some page, ps' :: rest)
    | (none, ps') =>
      let r := pageAllocnLoop count rest
      (r.1, ps' :: r.2)

/-- `page_allocn`: the kernel virtual address of the block, or `NULL`. -/
def pageAllocn (secs : List PageSection) (count : Int) :
    Except Fault (Option Nat × List PageSection) :=
  if count > 512 then .error .exit
  else
    let r := pageAllocnLoop count secs
    .ok (r.1.map (fun page => ptov page.pa), r.2)

/-- `page_alloc`. -/
def pageAlloc (secs : List PageSection) : Except Fault (Option Nat × List PageSection) :=
  pageAllocn secs 1

/-- The `while` loop of `page_free`: the index of the descriptor whose block
contains `ptr`. One round per bit and a last one end it. -/
def pageFreeScan (ps : PageSection) (ptr : Nat) : Nat → Nat → Option Nat
  | 0, _ => none
  | fuel + 1, start =>
    let pos := bitmapFindNext1 ps.bitmap (bitmapSize ps.nrPages) start
    if pos = -1 then none
    else
      let p := ps.pages pos.toNat
      if p.pa = 0 then pageFreeScan ps ptr fuel (pos.toNat + 1)
      else if ptov p.pa ≤ ptr ∧ ptr < u64 (ptov p.pa + i32 (p.count * 4096)) then some pos.toNat
      else pageFreeScan ps ptr fuel (pos.toNat + 1)

/-- What `page_free` does to the descriptor it found: one bit is cleared and the
descriptor zeroed. -/
def releaseAt (ps : PageSection) (pos : Nat) : PageSection :=
  { ps with
    free := i32 (ps.free + (ps.pages pos).count)
    bitmap := bitmapClearBit ps.bitmap pos
    pages := Function.update ps.pages pos ⟨0, 0⟩ }

/-- `page_free`: only the first section is searched; a pointer that is not found
is logged and ignored. -/
def pageFree (secs : List PageSection) (ptr : Nat) : Except Fault (List PageSection) :=
  if ptr % 4096 ≠ 0 then .error (.assertion .pageFree)
  else
    match secs with
    | [] => .ok []
    | ps :: rest =>
      match pageFreeScan ps ptr (bitmapSize ps.nrPages / 8 * 64 + 1) 0 with
      | none => .ok (ps :: rest)
      | some pos => .ok (releaseAt ps pos :: rest)

/-! ## One section -/

/-- The number of bits the searches of a section look at: `nr_pages` rounded up
to whole words. -/
@[irreducible] def limit (ps : PageSection) : Nat := bitmapSize ps.nrPages / 8 * 64

theorem bitmapSize_natCast {n : Nat} (h : n + 63 < 2147483648) :
    bitmapSize n = (n + 63) / 64 * 8 := by
  unfold bitmapSize
  rw [i32_of_lt (by omega) (by omega), Int.tdiv_eq_ediv_of_nonneg (by omega)]
  unfold u64
  omega

/-- The section after the area at `pos` has been handed out. -/
def grant (ps : PageSection) (pos count : Nat) : PageSection :=
  { ps with
    bitmap := bitmapSetBits ps.bitmap pos count
    pages := Function.update ps.pages pos ⟨u64 (ps.paBase + i32 (pos * 4096)), count⟩
    free := i32 (ps.free - count) }

/-- The first free area of `count` pages is at `pos`. -/
def FirstFree (ps : PageSection) (count pos : Nat) : Prop :=
  FreeArea ps.bitmap (bitmapSize ps.nrPages) count pos ∧
    ∀ q < pos, ¬ FreeArea ps.bitmap (bitmapSize ps.nrPages) count q

theorem pageAllocnSect_cases (ps : PageSection) {count : Nat} (hcount : 1 ≤ count)
    (hlim : limit ps + count < 2147483648) :
    (pageAllocnSect ps count = (none, ps) ∧
      ∀ p, ¬ FreeArea ps.bitmap (bitmapSize ps.nrPages) count p) ∨
    ∃ pos, FirstFree ps count pos ∧
      pageAllocnSect ps count =
        (some ⟨u64 (ps.paBase + i32 (pos * 4096)), count⟩, grant ps pos count) := by
  unfold limit at hlim
  unfold pageAllocnSect
  rcases bitmapFindNext0Area_first ps.bitmap (bitmapSize ps.nrPages) count hcount hlim with
    ⟨hr, hnone⟩ | ⟨pos, hr, _, hlt, hfree, hmin⟩
  · refine .inl ⟨by simp [hr], ?_⟩
    intro p hp
    exact hnone p (Nat.zero_le p) (by have := hp.2; omega) hp
  · refine .inr ⟨pos, ⟨hfree, fun q hq => hmin q (Nat.zero_le q) hq⟩, ?_⟩
    simp [hr, grant, show (pos : Int) ≠ -1 by omega]

/-- `page_sections` once the first element is in use. -/
def sections (ps : PageSection) : List PageSection := ps :: List.replicate 5 emptySection

theorem pageAllocnSect_empty (count : Int) :
    pageAllocnSect emptySection count = (none, emptySection) := by
  have h : bitmapFindNext0Area emptySection.bitmap (bitmapSize emptySection.nrPages) 0 count =
      -1 := by
    have h0 : bitmapSize emptySection.nrPages = 0 := by decide +kernel
    rw [h0]
    simp [bitmapFindNext0Area, findAreaLoop, bitmapFindNext0, findNext0Loop]
  simp [pageAllocnSect, h]

theorem pageAllocnLoop_empty (count : Int) (n : Nat) :
    pageAllocnLoop count (List.replicate n emptySection) =
      (none, List.replicate n emptySection) := by
  induction n with
  | zero => rfl
  | succ n ih => simp [List.replicate_succ, pageAllocnLoop, pageAllocnSect_empty, ih]

/-- **What `page_allocn` does**: it hands out the first free area of the one
section in use, or nothing. -/
theorem pageAllocn_cases (ps : PageSection) {count : Nat} (hcount : 1 ≤ count)
    (hmax : count ≤ 512) (hlim : limit ps + count < 2147483648) :
    (pageAllocn (sections ps) count = .ok (none, sections ps) ∧
      ∀ p, ¬ FreeArea ps.bitmap (bitmapSize ps.nrPages) count p) ∨
    ∃ pos, FirstFree ps count pos ∧
      pageAllocn (sections ps) count =
        .ok (some (ptov (u64 (ps.paBase + i32 (pos * 4096)))), sections (grant ps pos count)) := by
  unfold pageAllocn
  rw [if_neg (by omega)]
  rcases pageAllocnSect_cases ps hcount hlim with ⟨h, hnone⟩ | ⟨pos, hfree, h⟩
  · refine .inl ⟨?_, hnone⟩
    unfold sections
    simp only [pageAllocnLoop.eq_2, h, pageAllocnLoop_empty, Option.map_none]
  · refine .inr ⟨pos, hfree, ?_⟩
    unfold sections
    simp only [pageAllocnLoop.eq_2, h, Option.map_some]

/-! ## The layout `page_init` leaves -/

def metaPages (pages : Nat) : Nat := ((pages + 63) / 64 * 8 + pages * 16 + 4095) / 4096

/-- `nr_pages` of a section of `pages` pages. -/
def managedPages (pages : Nat) : Nat := pages - metaPages pages

variable {pages : Nat}

theorem metaPages_le (h : 0 < pages) : metaPages pages ≤ pages := by
  unfold metaPages
  omega

theorem metaPages_pos (h : 0 < pages) : 0 < metaPages pages := by
  unfold metaPages
  omega

/-- The section `page_init` sets up. -/
def initSection (words : BitmapT) (descs : Nat → Page) (base pages : Nat) : PageSection :=
  { paBase := base + 4096 * metaPages pages
    vaBase := ptov (base + 4096 * metaPages pages)
    nrPages := managedPages pages
    free := managedPages pages
    bitmapPtr := ptov base
    pagesPtr := ptov (base + (pages + 63) / 64 * 8)
    bitmap := bitmapInit words ((pages + 63) / 64 * 8) 0#64
    pages := descs }

theorem pageInit_eq (words : BitmapT) (descs : Nat → Page) {base : Nat} (hbase : base % 4096 = 0)
    (hpages : 0 < pages) (hint : pages + 63 < 2147483648) (hmem : base + 4096 * pages < 2 ^ 64) :
    pageInit words descs base pages = .ok (sections (initSection words descs base pages)) := by
  have hm := metaPages_le hpages
  have h1 : u64 ((base : Int) + ((pages + 63) / 64 * 8 : Nat)) = base + (pages + 63) / 64 * 8 := by
    unfold u64
    omega
  have h2 : u64 (((base + (pages + 63) / 64 * 8 : Nat) : Int) + pages * 16) =
      base + ((pages + 63) / 64 * 8 + pages * 16) := by
    unfold u64
    omega
  have h3 : alignUp (base + ((pages + 63) / 64 * 8 + pages * 16)) 4096 =
      base + 4096 * metaPages pages := by
    rw [alignUp_page (by unfold metaPages at hm; omega)]
    unfold metaPages
    omega
  have h4 : u64 (((base + 4096 * metaPages pages : Nat) : Int) - base) / 4096 =
      metaPages pages := by
    unfold u64
    omega
  have h5 : i32 ((pages : Int) - (metaPages pages : Nat)) = managedPages pages := by
    rw [i32_of_lt (by omega) (by omega)]
    unfold managedPages
    omega
  unfold pageInit pageSectionInit
  rw [if_neg (by omega), if_neg (by omega)]
  simp only [bitmapSize_natCast hint, h1, h2, h3, h4, h5]
  rfl

/-- The pages the searches of a section of `pages` pages look at: the managed ones, rounded up
to whole words. -/
def searchedPages (pages : Nat) : Nat := (managedPages pages + 63) / 64 * 64

/-- The pages that can be handed out, all but the last of those the searches look at, have
their descriptors in the array; only the last of these may have it in the padding between the
array and the first page. -/
def DescsFit (pages : Nat) : Prop :=
  searchedPages pages ≤ pages + 1 ∨
    searchedPages pages = pages + 2 ∧
      (pages + 63) / 64 * 8 + 16 * (pages + 1) ≤ 4096 * metaPages pages

instance (pages : Nat) : Decidable (DescsFit pages) := inferInstanceAs (Decidable (_ ∨ _))

/-- The 64 MiB that the kernel manages. -/
example : DescsFit 16384 := by decide

theorem pages_lt_of_managed (h : managedPages pages ≤ 524288) : pages + 63 < 2147483648 := by
  unfold managedPages metaPages at h
  omega

/-- The searches of a fresh section look at the managed pages, rounded up to
whole words. -/
theorem limit_init (words : BitmapT) (descs : Nat → Page) (base : Nat)
    (hint : pages + 63 < 2147483648) :
    limit (initSection words descs base pages) = (managedPages pages + 63) / 64 * 64 := by
  unfold limit initSection
  rw [bitmapSize_natCast (by unfold managedPages; omega)]
  omega

theorem getBit_initSection (words : BitmapT) (descs : Nat → Page) (base : Nat) {i : Nat}
    (hint : pages + 63 < 2147483648) (hi : i < limit (initSection words descs base pages)) :
    getBit (initSection words descs base pages).bitmap i = false := by
  rw [limit_init words descs base hint] at hi
  unfold managedPages at hi
  exact getBit_init (by omega)

end SpringOs.PageAlloc
