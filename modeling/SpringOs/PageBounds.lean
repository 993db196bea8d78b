import SpringOs.PageRuns

/-!
Where the blocks of a section lie. The bitmap is searched in whole words, so up
to 63 bits past the managed pages are allocatable, and a page index is scaled to
an address in `int` arithmetic.

* `confined_of_limit`: a section whose managed pages fill the words, but for at most
  one bit, and fit an `int` only hands out managed pages;
* `fill`: single-page requests reach every page index below the last bit;
* `page_bounds_iff`: the blocks of a run stay inside the section exactly when
  both conditions hold.
-/

namespace SpringOs.PageBounds
open Lib.Word Lib.Machine Lib.Ranges Bitmap Kernel PageAlloc PageRuns

variable {p0 ps : PageSection} {pages base k : Nat} {words : BitmapT} {descs : Nat → Page}

def okAny (_ : Sys) : Op → Prop
  | .allocn count => 1 ≤ count ∧ count ≤ 512
  | .free _ => True

def managed (ps : PageSection) : Extent := ⟨ps.paBase, 4096 * ps.nrPages.toNat⟩

/-- The managed pages lie in the memory given to `page_init`, apart from the
bitmap and the descriptors. -/
structure Laid (base pages : Nat) (ps : PageSection) : Prop where
  region : base ≤ ps.paBase ∧ ps.paBase + 4096 * ps.nrPages.toNat ≤ base + 4096 * pages
  bitmap : Extent.Apart ⟨vtop ps.bitmapPtr, bitmapSize pages⟩ (managed ps)
  descs : Extent.Apart ⟨vtop ps.pagesPtr, 16 * pages⟩ (managed ps)

/-- A block at `pa`, handed out by the step from `ps` to `ps'`, consists of whole
managed pages of a well laid out section, and only reserved descriptors were
written. -/
structure Confined (base pages : Nat) (ps ps' : PageSection) (pa count : Nat) : Prop where
  laid : Laid base pages ps
  whole : pa % 4096 = 0
  inside : ps.paBase ≤ pa ∧ pa + 4096 * count ≤ ps.paBase + 4096 * ps.nrPages.toNat
  index : ∀ i, ps'.pages i ≠ ps.pages i → i < pages

/-- Every block handed out in any run of a section of `pages` pages at `base`. -/
def AllConfined (base pages : Nat) : Prop :=
  ∀ words descs secs, pageInit words descs base pages = .ok secs →
    ∀ s, Steps step okAny ⟨secs, []⟩ s →
      ∀ (count : Nat) va secs', 1 ≤ count → pageAllocn s.secs count = .ok (some va, secs') →
        Confined base pages (sect s.secs) (sect secs') (vtop va) count

/-! ## What no call changes -/

/-- `ps` is a later state of the section `p0`. -/
structure Same (p0 ps : PageSection) : Prop where
  paBase : ps.paBase = p0.paBase
  nrPages : ps.nrPages = p0.nrPages
  bitmapPtr : ps.bitmapPtr = p0.bitmapPtr
  pagesPtr : ps.pagesPtr = p0.pagesPtr

theorem Same.limit_eq (h : Same p0 ps) : limit ps = limit p0 := by
  unfold limit
  rw [h.nrPages]

theorem pageFree_cases (ps : PageSection) (ptr : Nat) {secs : List PageSection}
    (h : pageFree (sections ps) ptr = .ok secs) :
    secs = sections ps ∨ ∃ pos, secs = sections (releaseAt ps pos) := by
  unfold pageFree sections at h
  split at h
  · exact absurd h (by simp)
  · simp only at h
    split at h
    · exact .inl (Except.ok.inj h).symm
    · exact .inr ⟨_, (Except.ok.inj h).symm⟩

theorem step_same (hlim : limit p0 + 512 < 2147483648) (s : Sys) (op : Op) (s' : Sys)
    (hs : ∃ ps, s.secs = sections ps ∧ Same p0 ps) (hop : okAny s op) (h : step s op = some s') :
    ∃ ps, s'.secs = sections ps ∧ Same p0 ps := by
  obtain ⟨secs, live⟩ := s
  obtain ⟨ps, rfl, hsame⟩ := hs
  have hgrant : ∀ pos count, Same p0 (grant ps pos count) := fun _ _ =>
    ⟨hsame.paBase, hsame.nrPages, hsame.bitmapPtr, hsame.pagesPtr⟩
  have hrelease : ∀ pos, Same p0 (releaseAt ps pos) := fun _ =>
    ⟨hsame.paBase, hsame.nrPages, hsame.bitmapPtr, hsame.pagesPtr⟩
  cases op with
  | allocn count =>
    obtain ⟨hcount, hmax⟩ := hop
    have hle := hsame.limit_eq
    simp only [step] at h
    rcases pageAllocn_cases ps hcount hmax (by omega) with ⟨he, _⟩ | ⟨pos, _, he⟩
    · rw [he] at h
      obtain rfl := Option.some.inj h
      exact ⟨ps, rfl, hsame⟩
    · rw [he] at h
      obtain rfl := Option.some.inj h
      exact ⟨_, rfl, hgrant pos count⟩
  | free ptr =>
    simp only [step] at h
    split at h
    · rename_i secs hfree
      obtain rfl := Option.some.inj h
      rcases pageFree_cases ps ptr hfree with rfl | ⟨pos, rfl⟩
      · exact ⟨ps, rfl, hsame⟩
      · exact ⟨_, rfl, hrelease pos⟩
    · exact absurd h (by simp)

/-! ## Sections that keep to themselves -/

theorem limit_init_lt (words : BitmapT) (descs : Nat → Page) (base : Nat)
    (hint : pages + 63 < 2147483648) :
    limit (initSection words descs base pages) + 512 < 2147483648 := by
  rw [limit_init words descs base hint]
  unfold managedPages metaPages
  omega

theorem laid_of_same (hpages : 0 < pages) (hint : pages + 63 < 2147483648)
    (hmem : base + 4096 * pages < 2 ^ 64) (hsame : Same (initSection words descs base pages) ps) :
    Laid base pages ps := by
  have hmeta := metaPages_le hpages
  have hbase : ps.paBase = base + 4096 * metaPages pages := hsame.paBase
  have hnr : ps.nrPages = managedPages pages := hsame.nrPages
  have hbits : ps.bitmapPtr = ptov base := hsame.bitmapPtr
  have hdescs : ps.pagesPtr = ptov (base + (pages + 63) / 64 * 8) := hsame.pagesPtr
  have hfit : (pages + 63) / 64 * 8 + pages * 16 ≤ 4096 * metaPages pages := by
    unfold metaPages
    omega
  refine ⟨⟨by omega, ?_⟩, .inl ?_, .inl ?_⟩
  · rw [hbase, hnr, Int.toNat_natCast]
    unfold managedPages
    omega
  · rw [hbits, vtop_ptov_of_lt (by omega), bitmapSize_natCast hint]
    simp only [managed]
    omega
  · rw [hdescs, vtop_ptov_of_lt (by omega)]
    simp only [managed]
    omega

/-- **Confinement**, when the searches look at no more than one bit past the
managed pages and page offsets fit an `int`. -/
theorem confined_of_limit (hbase : base % 4096 = 0) (hpages : 0 < pages)
    (hmem : base + 4096 * pages < 2 ^ 64) (hsmall : managedPages pages ≤ 524288)
    (hword : managedPages pages % 64 = 0 ∨ managedPages pages % 64 = 63)
    (hsame : Same (initSection words descs base pages) ps) {count va : Nat}
    {secs' : List PageSection} (hcount : 1 ≤ count)
    (h : pageAllocn (sections ps) count = .ok (some va, secs')) :
    Confined base pages ps (sect secs') (vtop va) count := by
  have hint := pages_lt_of_managed hsmall
  have hlaid := laid_of_same hpages hint hmem hsame
  have hlim := limit_init words descs base hint
  have hlt := limit_init_lt words descs base hint
  rw [← hsame.limit_eq] at hlim hlt
  have hmax : count ≤ 512 := by
    by_contra hgt
    unfold pageAllocn at h
    rw [if_pos (by omega)] at h
    exact absurd h (by simp)
  have hpaBase : ps.paBase = base + 4096 * metaPages pages := hsame.paBase
  have hnr : ps.nrPages.toNat = managedPages pages := by rw [hsame.nrPages]; rfl
  have htop := hlaid.region.2
  rw [hnr] at htop
  rcases pageAllocn_cases ps hcount hmax (by omega) with ⟨he, _⟩ | ⟨pos, hfree, he⟩
  · exact absurd (he.symm.trans h) (by simp)
  · simp only [he, Except.ok.injEq, Prod.mk.injEq, Option.some.injEq] at h
    obtain ⟨rfl, rfl⟩ := h
    have hend : pos + count < limit ps := by
      unfold limit
      exact hfree.1.2
    have hpa : u64 (ps.paBase + i32 (pos * 4096)) = ps.paBase + 4096 * pos := by
      rw [i32_of_lt (by omega) (by omega)]
      unfold u64
      omega
    rw [hpa, vtop_ptov_of_lt (by omega)]
    refine ⟨hlaid, by omega, ⟨by omega, by omega⟩, ?_⟩
    intro i hi
    by_contra hge
    refine hi ?_
    have hdef : managedPages pages = pages - metaPages pages := rfl
    have hne : i ≠ pos := by omega
    rw [sect_sections]
    simp only [grant]
    rw [Function.update_of_ne hne]

/-! ## Filling a section -/

/-- The first `k` pages taken, one by one. -/
structure Filled (p0 : PageSection) (k : Nat) (ps : PageSection) : Prop where
  same : Same p0 ps
  bits : ∀ i < limit p0, getBit ps.bitmap i = decide (i < k)

/-- In a section whose first `k` pages are taken, the next pages are those from `k` on. -/
theorem pageAllocn_filled (h : Filled p0 k ps) (hlim : limit p0 + 512 < 2147483648) {count : Nat}
    (hcount : 1 ≤ count) (hmax : count ≤ 512) (hk : k + count < limit p0) :
    FreeArea ps.bitmap (bitmapSize ps.nrPages) count k ∧
    pageAllocn (sections ps) count = .ok (some (ptov (u64 (ps.paBase + i32 (k * 4096)))),
      sections (grant ps k count)) ∧ Filled p0 (k + count) (grant ps k count) := by
  have hle := h.same.limit_eq
  have hsize : limit ps = bitmapSize ps.nrPages / 8 * 64 := by
    unfold limit
    rfl
  have hkfree : FreeArea ps.bitmap (bitmapSize ps.nrPages) count k := by
    refine ⟨?_, by omega⟩
    intro q hlo hhi
    rw [h.bits q (by omega), decide_eq_false_iff_not]
    omega
  rcases pageAllocn_cases ps hcount hmax (by omega) with
    ⟨_, hnone⟩ | ⟨pos, ⟨hfree, hmin⟩, he⟩
  · exact absurd hkfree (hnone k)
  · have hpos : pos = k := by
      have hlt := hfree.2
      have hbit := hfree.1 pos (le_refl _) (by omega)
      rw [h.bits pos (by omega), decide_eq_false_iff_not] at hbit
      by_contra hne
      exact hmin k (by omega) hkfree
    subst hpos
    refine ⟨hkfree, he, ⟨h.same.paBase, h.same.nrPages, h.same.bitmapPtr, h.same.pagesPtr⟩, ?_⟩
    intro i hi
    simp only [grant, getBit_setBits, h.bits i hi]
    rw [Bool.eq_iff_iff]
    simp only [Bool.or_eq_true, decide_eq_true_eq]
    omega

theorem filled_fresh (hclear : ∀ i < limit p0, getBit p0.bitmap i = false) : Filled p0 0 p0 := by
  refine ⟨⟨rfl, rfl, rfl, rfl⟩, fun i hi => ?_⟩
  simp [hclear i hi]

/-- **Filling**: single-page requests reach every page index below the last bit
the searches look at. -/
theorem fill (hlim : limit p0 + 512 < 2147483648)
    (hclear : ∀ i < limit p0, getBit p0.bitmap i = false) (k : Nat) (hk : k < limit p0) :
    ∃ ps live, Steps step okAny ⟨sections p0, []⟩ ⟨sections ps, live⟩ ∧ Filled p0 k ps := by
  induction k with
  | zero => exact ⟨p0, [], .refl, filled_fresh hclear⟩
  | succ k ih =>
    obtain ⟨ps, live, hrun, hfill⟩ := ih (by omega)
    obtain ⟨-, he, hnext⟩ := pageAllocn_filled hfill hlim (le_refl 1) (by omega) (by omega)
    exact ⟨_, _, .tail (.allocn 1) hrun ⟨le_refl _, by omega⟩
      (step_allocn_of (s := ⟨sections ps, live⟩) he), hnext⟩

theorem handed_out (p0 : PageSection) (hlim : limit p0 + 512 < 2147483648)
    (hclear : ∀ i < limit p0, getBit p0.bitmap i = false) (hk : k + 1 < limit p0) :
    ∃ ps live secs', Steps step okAny ⟨sections p0, []⟩ ⟨sections ps, live⟩ ∧ Same p0 ps ∧
      pageAllocn (sections ps) (1 : Nat) =
        .ok (some (ptov (u64 (p0.paBase + i32 (k * 4096)))), secs') := by
  obtain ⟨ps, live, hrun, hfill⟩ := fill hlim hclear k (by omega)
  obtain ⟨-, he, _⟩ := pageAllocn_filled hfill hlim (le_refl 1) (by omega) hk
  rw [hfill.same.paBase] at he
  exact ⟨ps, live, _, hrun, hfill.same, he⟩

/-! ## The extreme sizes -/

/-- Where `pages + 63` overflows an `int`, `BITMAP_SIZE` is nearly `2^64`: the
bitmap would cover the whole memory. -/
theorem bitmapSize_overflow (hlo : 2147483648 ≤ pages + 63) (hhi : pages < 2147483648) :
    2 ^ 64 - 2 ^ 28 ≤ bitmapSize pages ∧ bitmapSize pages < 2 ^ 64 := by
  have hi : i32 (pages + 63) = (pages : Int) + 63 - 4294967296 := by
    unfold i32
    omega
  have hsign : Int.sign 64 = 1 := rfl
  unfold bitmapSize
  rw [hi, Int.tdiv_eq_ediv, hsign]
  unfold u64
  split <;> omega

/-- The distance of the managed pages from `base` there, in pages. -/
def overflowMeta (pages : Nat) : Nat := (16 * pages + bitmapSize pages - 2 ^ 64 + 4095) / 4096

/-- The section `page_init` sets up there. -/
def overflowSection (words : BitmapT) (descs : Nat → Page) (base pages : Nat) : PageSection :=
  { paBase := base + 4096 * overflowMeta pages
    vaBase := ptov (base + 4096 * overflowMeta pages)
    nrPages := (pages - overflowMeta pages : Nat)
    free := (pages - overflowMeta pages : Nat)
    bitmapPtr := ptov base
    pagesPtr := ptov (u64 (base + bitmapSize pages))
    bitmap := bitmapInit words (bitmapSize pages) 0#64
    pages := descs }

theorem overflowMeta_bounds (hlo : 2147483648 ≤ pages + 63) (hhi : pages < 2147483648) :
    8000000 < overflowMeta pages ∧ overflowMeta pages < 9000000 := by
  have hsize := bitmapSize_overflow hlo hhi
  unfold overflowMeta
  omega

theorem pageInit_overflow (words : BitmapT) (descs : Nat → Page) (hbase : base % 4096 = 0)
    (hlo : 2147483648 ≤ pages + 63) (hhi : pages < 2147483648)
    (hmem : base + 4096 * pages < 2 ^ 64) :
    pageInit words descs base pages = .ok (sections (overflowSection words descs base pages)) := by
  have hsize := bitmapSize_overflow hlo hhi
  have hbounds := overflowMeta_bounds hlo hhi
  have h2 : u64 ((u64 ((base : Int) + bitmapSize pages) : Nat) + (pages : Int) * 16) =
      base + 16 * pages + bitmapSize pages - 2 ^ 64 := by
    unfold u64
    omega
  have h3 : alignUp (base + 16 * pages + bitmapSize pages - 2 ^ 64) 4096 =
      base + 4096 * overflowMeta pages := by
    rw [alignUp_page (by omega)]
    unfold overflowMeta
    omega
  have h4 : u64 (((base + 4096 * overflowMeta pages : Nat) : Int) - base) / 4096 =
      overflowMeta pages := by
    unfold u64
    omega
  have h5 : i32 ((pages : Int) - (overflowMeta pages : Nat)) =
      ((pages - overflowMeta pages : Nat) : Int) := by
    rw [i32_of_lt (by omega) (by omega)]
    omega
  unfold pageInit pageSectionInit
  rw [if_neg (by omega), if_neg (by omega)]
  simp only [h2, h3, h4, h5]
  rfl

theorem limit_overflow (words : BitmapT) (descs : Nat → Page) (base : Nat)
    (hlo : 2147483648 ≤ pages + 63) (hhi : pages < 2147483648) :
    limit (overflowSection words descs base pages) =
      (pages - overflowMeta pages + 63) / 64 * 64 := by
  have hbounds := overflowMeta_bounds hlo hhi
  unfold limit overflowSection
  rw [bitmapSize_natCast (by omega)]
  omega

theorem not_laid_overflow (words : BitmapT) (descs : Nat → Page) (hlo : 2147483648 ≤ pages + 63)
    (hhi : pages < 2147483648) (hmem : base + 4096 * pages < 2 ^ 64)
    (hsame : Same (overflowSection words descs base pages) ps) : ¬ Laid base pages ps := by
  have hsize := bitmapSize_overflow hlo hhi
  have hbounds := overflowMeta_bounds hlo hhi
  have hbits : ps.bitmapPtr = ptov base := hsame.bitmapPtr
  have hbase : ps.paBase = base + 4096 * overflowMeta pages := hsame.paBase
  intro h
  have hap := h.bitmap
  rw [hbits, vtop_ptov_of_lt (by omega)] at hap
  simp only [Extent.Apart, managed] at hap
  omega

/-! ## The iff -/

theorem not_allConfined_of (hinit : pageInit words descs base pages = .ok (sections p0))
    (hlim : limit p0 + 512 < 2147483648) (hclear : ∀ i < limit p0, getBit p0.bitmap i = false)
    (hk : k + 1 < limit p0) (hbad : ∀ ps ps', Same p0 ps →
      ¬ Confined base pages ps ps' (u64 (p0.paBase + i32 (k * 4096))) 1) :
    ¬ AllConfined base pages := by
  intro h
  obtain ⟨ps, live, secs', hrun, hsame, he⟩ := handed_out p0 hlim hclear hk
  have hc := h words descs _ hinit _ hrun 1 _ secs' (le_refl _) he
  rw [vtop_ptov_of_lt (u64_lt _)] at hc
  exact hbad ps _ hsame hc

/-- **Blocks stay inside the section exactly when** the managed pages number at
most `2^19` and fill their bitmap words but for at most one bit. -/
theorem page_bounds_iff {base pages : Nat} (hbase : base % 4096 = 0) (hpages : 0 < pages)
    (hhi : pages < 2147483648) (hmem : base + 4096 * pages < 2 ^ 64) :
    AllConfined base pages ↔
      managedPages pages ≤ 524288 ∧
        (managedPages pages % 64 = 0 ∨ managedPages pages % 64 = 63) := by
  constructor
  · intro h
    by_contra hcond
    by_cases hint : pages + 63 < 2147483648
    · -- a fresh section hands out every index below the last bit of its words
      have hlim := limit_init (fun _ => 0#64) zeroDescs base hint
      have hmeta := metaPages_le hpages
      have hdef : managedPages pages = pages - metaPages pages := rfl
      have hbad := fun k hk => not_allConfined_of (k := k)
        (pageInit_eq (fun _ => 0#64) zeroDescs hbase hpages hint hmem)
        (limit_init_lt _ _ base hint) (fun i => getBit_initSection _ _ base hint) hk
      have hinside : ∀ ps, Same (initSection (fun _ => 0#64) zeroDescs base pages) ps →
          ps.paBase = base + 4096 * metaPages pages ∧ ps.nrPages.toNat = managedPages pages := by
        intro ps hsame
        exact ⟨hsame.paBase, by rw [hsame.nrPages]; rfl⟩
      by_cases hbig : managedPages pages ≤ 524288
      · -- page index `nr_pages` is free at the end
        refine hbad (managedPages pages) (by omega) ?_ h
        intro ps ps' hsame hc
        obtain ⟨hpa, hnr⟩ := hinside ps hsame
        have hin := hc.inside.2
        rw [← hsame.paBase, hpa, hnr, i32_of_lt (by omega) (by omega)] at hin
        unfold u64 at hin
        omega
      · -- the offset of page `2^19` is negative as an `int`
        refine hbad 524288 (by omega) ?_ h
        intro ps ps' hsame hc
        obtain ⟨hpa, hnr⟩ := hinside ps hsame
        have hin := hc.inside
        have hneg : i32 ((524288 : Nat) * 4096) = -2147483648 := by decide +kernel
        rw [← hsame.paBase, hpa, hnr, hneg] at hin
        unfold u64 at hin
        omega
    · have hlo : 2147483648 ≤ pages + 63 := by omega
      have hlim := limit_overflow (fun _ => 0#64) zeroDescs base hlo hhi
      have hbounds := overflowMeta_bounds hlo hhi
      refine not_allConfined_of (k := 0)
        (pageInit_overflow (fun _ => 0#64) zeroDescs hbase hlo hhi hmem) (by omega) ?_ (by omega)
        ?_ h
      · intro i hi
        have hsize := bitmapSize_overflow hlo hhi
        exact getBit_init (by omega)
      · intro ps ps' hsame hc
        exact not_laid_overflow _ _ hlo hhi hmem hsame hc.laid
  · rintro ⟨hsmall, hword⟩
    intro words descs secs hinit s hrun count va secs' hcount h
    have hint := pages_lt_of_managed hsmall
    obtain rfl := Except.ok.inj (hinit.symm.trans
      (pageInit_eq words descs hbase hpages hint hmem))
    obtain ⟨ps, hps, hsame⟩ := hrun.invariant ⟨_, rfl, rfl, rfl, rfl, rfl⟩
      (step_same (limit_init_lt words descs base hint))
    rw [hps] at h ⊢
    exact confined_of_limit hbase hpages hmem hsmall hword hsame hcount h

theorem page_bounds_boot :
    managedPages 16384 = 16319 ∧ AllConfined 0x40000000 16384 :=
  ⟨by decide, (page_bounds_iff (by decide) (by decide) (by decide) (by decide)).mpr
    (by decide)⟩

/-- A section of two pages manages one; its second allocation lies behind it. -/
theorem page_bounds_two_pages :
    pageInit (fun _ => 0#64) zeroDescs 0x40000000 (2 : Nat) =
      .ok (sections (initSection (fun _ => 0#64) zeroDescs 0x40000000 2)) ∧
    ∃ ps live secs', Steps step okAny
        ⟨sections (initSection (fun _ => 0#64) zeroDescs 0x40000000 2), []⟩ ⟨sections ps, live⟩ ∧
      (ps.paBase, ps.nrPages) = (0x40001000, 1) ∧
      pageAllocn (sections ps) (1 : Nat) = .ok (some (ptov 0x40002000), secs') ∧
      ¬ Confined 0x40000000 2 ps (sect secs') 0x40002000 1 := by
  have hlim : limit (initSection (fun _ => 0#64) zeroDescs 0x40000000 2) = 64 := by
    rw [limit_init _ _ _ (by decide)]
    decide
  obtain ⟨ps, live, secs', hrun, hsame, he⟩ := handed_out
    (initSection (fun _ => 0#64) zeroDescs 0x40000000 2) (k := 1) (by omega)
    (fun i => getBit_initSection _ _ _ (by decide)) (by omega)
  have hbase : ps.paBase = 0x40001000 := hsame.paBase
  have hnr : ps.nrPages = 1 := hsame.nrPages
  refine ⟨pageInit_eq _ _ (by decide) (by decide) (by decide) (by decide), ps, live, secs', hrun,
    by rw [hbase, hnr], he, ?_⟩
  intro hc
  have hin := hc.inside.2
  rw [hbase, hnr] at hin
  exact absurd hin (by decide)

end SpringOs.PageBounds
