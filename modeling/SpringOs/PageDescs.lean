import SpringOs.PageBounds

/-!
Where the descriptors of a section lie. The array has one for each page given to `page_init`,
but the searches go on to the end of the last word of the bitmap. The descriptors of the pages
behind the array are whatever is there: the padding in front of the first page, or that page
itself, which belongs to a client.

* `Event`: the calls, and the stores of the clients to their blocks;
* `Inv.event`: where the descriptors fit, no event disturbs them;
* `Packed`: a section filled page by page, for the runs where they do not;
* **`page_runs_safe_iff`**: live blocks never overlap, their bits are set and `page_free`
  releases the block that contains its pointer and no other, in every run exactly if the
  descriptors fit.
-/

namespace SpringOs.PageDescs
open Lib.Word Lib.Machine Lib.Ranges Bitmap Kernel PageAlloc PageRuns PageBounds
open Function (update update_self update_of_ne)

/-! ## The system with its clients -/

/-- A call of the allocator, or stores of clients, after which the memory at `ps->pages` reads
as `descs`. -/
inductive Event
  | call (op : Op)
  | store (descs : Nat → Page)

/-- The section with other contents of the memory at `pages`. -/
def withDescs (ps : PageSection) (descs : Nat → Page) : PageSection := { ps with pages := descs }

def setDescs (descs : Nat → Page) : List PageSection → List PageSection
  | [] => []
  | ps :: rest => withDescs ps descs :: rest

def event (s : Sys) : Event → Option Sys
  | .call op => step s op
  | .store descs => some { s with secs := setDescs descs s.secs }

def InBlock (s : Sys) (va : Nat) : Prop :=
  ∃ a ∈ s.live, ∃ i, a.Has i ∧ pageVa s.secs i ≤ va ∧ va < pageVa s.secs i + 4096

/-- Clients store to their blocks only. The two fields of a descriptor are 8 bytes apart. -/
def allowed (s : Sys) : Event → Prop
  | .call op => ok s op
  | .store descs => ∀ i,
    ((descs i).pa ≠ ((sect s.secs).pages i).pa → InBlock s ((sect s.secs).pagesPtr + 16 * i)) ∧
    ((descs i).count ≠ ((sect s.secs).pages i).count →
      InBlock s ((sect s.secs).pagesPtr + 16 * i + 8))

/-- The blocks are disjoint and their bits set, and `page_free` of any page of a block releases
that block and leaves every other one as it was. -/
def Safe (s : Sys) : Prop :=
  s.live.Pairwise Extent.Apart ∧
  (∀ a ∈ s.live, ∀ i, a.Has i → getBit (sect s.secs).bitmap i = true) ∧
  ∀ a ∈ s.live, ∀ i, a.Has i → ∃ s', step s (.free (pageVa s.secs i)) = some s' ∧
    (∀ b, b ∈ s'.live ↔ b ∈ s.live ∧ b ≠ a) ∧
    (sect s'.secs).pages a.pos = ⟨0, 0⟩ ∧ getBit (sect s'.secs).bitmap a.pos = false ∧
    ∀ b ∈ s'.live, (sect s'.secs).pages b.pos = (sect s.secs).pages b.pos ∧
      ∀ j, b.Has j → getBit (sect s'.secs).bitmap j = true

theorem calls {s t : Sys} (h : Steps step ok s t) : Steps event allowed s t := by
  induction h with
  | refl => exact .refl
  | tail op _ hop hs ih => exact ih.tail (.call op) hop hs

theorem limit_withDescs (ps : PageSection) (descs : Nat → Page) :
    limit (withDescs ps descs) = limit ps := by
  unfold limit
  rfl

theorem placed_withDescs {ps : PageSection} (hp : Placed ps) (descs : Nat → Page) :
    Placed (withDescs ps descs) := by
  refine ⟨?_, hp.base, hp.aligned, ?_⟩
  · rw [limit_withDescs]
    exact hp.small
  · rw [limit_withDescs]
    exact hp.top

/-! ## Descriptors that fit -/

/-- An allocator whose descriptors no client reaches. -/
def Inv (s : Sys) : Prop :=
  ∃ ps, s.secs = sections ps ∧ Placed ps ∧ SecInv ps s.live ∧ DescsInside ps

/-- A store of a client changes no descriptor of a page that can be handed out. -/
theorem store_eq {ps : PageSection} {live : List Extent} (hp : Placed ps) (hin : DescsInside ps)
    (hi : SecInv ps live) {descs : Nat → Page} (hok : allowed ⟨sections ps, live⟩ (.store descs))
    {i : Nat} (hlt : i + 1 < limit ps) : descs i = ps.pages i := by
  have hout : ∀ va, va < pageVa (sections ps) 0 → ¬ InBlock ⟨sections ps, live⟩ va := by
    rintro va hva ⟨a, ha, j, haj, hlo, -⟩
    have hend := (hi.size a ha).2.2
    unfold Extent.Has at haj
    rw [hp.pageVa_eq (by omega)] at hlo hva
    omega
  unfold DescsInside at hin
  obtain ⟨hpa, hcount⟩ := hok i
  have hpa' : (descs i).pa = (ps.pages i).pa := by
    by_contra hne
    refine hout _ ?_ (hpa hne)
    rw [sect_sections]
    omega
  have hcount' : (descs i).count = (ps.pages i).count := by
    by_contra hne
    refine hout _ ?_ (hcount hne)
    rw [sect_sections]
    omega
  exact congrArg₂ Page.mk hpa' hcount'

/-- **Every event** keeps the invariant. -/
theorem Inv.event (s : Sys) (e : Event) (s' : Sys) (hs : Inv s) (he : allowed s e)
    (h : event s e = some s') : Inv s' := by
  obtain ⟨secs, live⟩ := s
  obtain ⟨ps, rfl, hp, hi, hin⟩ := hs
  cases e with
  | call op =>
    cases op with
    | allocn count =>
      obtain ⟨hcount, hmax⟩ := he
      rcases step_allocn hp live hcount hmax with ⟨heq, _⟩ | ⟨pos, hfree, heq⟩
      · cases heq.symm.trans h
        exact ⟨ps, rfl, hp, hi, hin⟩
      · cases heq.symm.trans h
        refine ⟨_, rfl, hp.grant pos count, SecInv.grant hp hi hcount hmax hfree.1, ?_⟩
        unfold DescsInside
        rw [limit_grant]
        exact hin
    | free ptr =>
      obtain ⟨a, ha, i, hai, rfl⟩ := he
      cases (step_free hp hi ha hai).symm.trans h
      refine ⟨_, rfl, hp.releaseAt a.pos,
        hi.releaseAt ha List.filter_sublist (mem_filter_has hi.apart ha hai), ?_⟩
      unfold DescsInside
      rw [limit_releaseAt]
      exact hin
  | store descs =>
    cases h
    have hlimit := limit_withDescs ps descs
    refine ⟨withDescs ps descs, rfl, placed_withDescs hp descs,
      ⟨⟨hi.apart, hlimit ▸ hi.size, hi.held, fun a ha => ?_⟩, fun i hlt hne => ?_⟩, ?_⟩
    · have hsize := hi.size a ha
      change descs a.pos = _
      rw [store_eq hp hin hi he (by omega)]
      exact hi.desc a ha
    · rw [hlimit] at hlt
      refine hi.only i hlt ?_
      rwa [← store_eq hp hin hi he (show i + 1 < limit ps by omega)]
    · unfold DescsInside
      rw [hlimit]
      exact hin

theorem Inv.safe {s : Sys} (h : Inv s) : Safe s := by
  obtain ⟨secs, live⟩ := s
  obtain ⟨ps, rfl, hp, hi, -⟩ := h
  refine ⟨hi.apart, hi.held, ?_⟩
  intro a ha i hai
  have hmem := mem_filter_has hi.apart ha hai
  have hi' := hi.releaseAt ha List.filter_sublist hmem
  refine ⟨_, step_free hp hi ha hai, hmem, ?_, ?_, ?_⟩
  · simp [sect_sections, releaseAt]
  · simp [sect_sections, releaseAt, getBit_clearBit]
  · intro b hb
    refine ⟨?_, hi'.held b hb⟩
    simp only [sect_sections]
    rw [hi'.desc b hb, hi.desc b ((hmem b).mp hb).1]
    rfl

/-! ## Filled sections -/

/-- The first `k` pages of `p0` are handed out, and the descriptors no block has written read
as before. -/
structure Packed (p0 : PageSection) (k : Nat) (ps : PageSection) (live : List Extent) : Prop where
  filled : Filled p0 k ps
  blocks : Blocks ps live
  rest : ∀ i, (∀ a ∈ live, a.pos ≠ i) → ps.pages i = p0.pages i

variable {p0 ps : PageSection} {live : List Extent} {k : Nat}

theorem Packed.placed (h : Packed p0 k ps live) (hp : Placed p0) : Placed ps := by
  have hsame := h.filled.same
  refine ⟨hsame.limit_eq ▸ hp.small, hsame.paBase ▸ hp.base, hsame.paBase ▸ hp.aligned, ?_⟩
  rw [hsame.limit_eq, hsame.paBase]
  exact hp.top

theorem Packed.allocn (h : Packed p0 k ps live) (hp : Placed p0) {count : Nat}
    (hcount : 1 ≤ count) (hmax : count ≤ 512) (hk : k + count < limit p0) :
    step ⟨sections ps, live⟩ (.allocn count) =
      some ⟨sections (grant ps k count), ⟨k, count⟩ :: live⟩ ∧
    Packed p0 (k + count) (grant ps k count) (⟨k, count⟩ :: live) := by
  have hsmall := hp.small
  have hp' := h.placed hp
  have hlt : k < limit ps := by
    rw [h.filled.same.limit_eq]
    omega
  obtain ⟨hfree, he, hfilled⟩ := pageAllocn_filled h.filled (by omega) hcount hmax hk
  refine ⟨?_, hfilled, h.blocks.grant hp' hcount hmax hfree, fun i hi => ?_⟩
  · rw [step_allocn_of (s := ⟨sections ps, live⟩) he, hp'.pa_eq hlt, hp'.indexOf_ptov hlt]
  · obtain ⟨hne, hrest⟩ := List.forall_mem_cons.1 hi
    simp only [grant]
    rw [update_of_ne (Ne.symm hne), h.rest i hrest]

theorem packed_singles (hp : Placed p0) (hblocks : Blocks p0 [])
    (hclear : ∀ i < limit p0, getBit p0.bitmap i = false) (k : Nat) (hk : k < limit p0) :
    ∃ ps live, Steps step ok ⟨sections p0, []⟩ ⟨sections ps, live⟩ ∧ Packed p0 k ps live ∧
      ∀ i < k, ⟨i, 1⟩ ∈ live := by
  induction k with
  | zero =>
    exact ⟨p0, [], .refl, ⟨filled_fresh hclear, hblocks, fun _ _ => rfl⟩, fun i hi => by omega⟩
  | succ k ih =>
    obtain ⟨ps, live, hrun, hpacked, hmem⟩ := ih (by omega)
    obtain ⟨hs, hnext⟩ := hpacked.allocn hp (le_refl 1) (by omega) (by omega)
    refine ⟨_, _, hrun.tail (.allocn 1) ⟨le_refl _, by omega⟩ hs, hnext, fun i hi => ?_⟩
    by_cases hik : i = k
    · subst hik
      exact List.mem_cons_self
    · exact List.mem_cons_of_mem _ (hmem i (by omega))

/-- A descriptor that reads as zero where no block has written covers nothing; that of a block
covers its own pages. -/
theorem Packed.has_of_covers (h : Packed p0 k ps live) (hp : Placed p0) {i q : Nat}
    (hi : i < limit p0) (hzero : p0.pages q = ⟨0, 0⟩)
    (hcovers : Covers ps (pageVa (sections ps) i) q) : ∃ a ∈ live, a.pos = q ∧ a.Has i := by
  by_cases hhead : ∃ a ∈ live, a.pos = q
  · obtain ⟨a, ha, rfl⟩ := hhead
    refine ⟨a, ha, rfl, (h.blocks.covers_iff (h.placed hp) ha ?_).1 hcovers⟩
    rwa [h.filled.same.limit_eq]
  · have hread := h.rest q fun a ha he => hhead ⟨a, ha, he⟩
    exact absurd (by rw [hread, hzero]) hcovers.1

theorem pos_ne_of_inside (h : Blocks ps live) {b : Extent} (hb : b ∈ live) {i : Nat} (hbi : b.Has i)
    (hne : b.pos ≠ i) : ∀ a ∈ live, a.pos ≠ i := by
  intro a ha hai
  have hhas : a.Has i := ⟨hai.le, by have := (h.size a ha).1; omega⟩
  exact hne (eq_of_has h.apart ha hb hhas hbi ▸ hai)

/-! ## Descriptors that do not fit -/

section
variable {base pages : Nat} (hbase : base % 4096 = 0) (hpages : 0 < pages)
  (hmanaged : managedPages pages < 524288) (htop : base + 4096 * pages + 262144 ≤ 2 ^ 48)

/-- What the memory behind the array may hold: it reads as the descriptor of page `pages + 1`. -/
def strayDescs (base pages : Nat) : Nat → Page := update zeroDescs pages
  ⟨base + 4096 * metaPages pages + 4096 * (pages + 1), 1⟩

theorem strayDescs_zero {i : Nat} (hi : i < pages) : strayDescs base pages i = ⟨0, 0⟩ :=
  update_of_ne (by omega) ..

include hbase hpages hmanaged htop

/-- The stray descriptor stands at the second page of a block. The next block has page
`pages + 1`, and `page_free` of this page releases the stray one. -/
theorem not_safe_stray (hlim : pages + 3 ≤ searchedPages pages) :
    ∃ s, Steps event allowed
      ⟨sections (initSection (fun _ => 0#64) (strayDescs base pages) base pages), []⟩ s ∧
      ¬ Safe s := by
  have hint := pages_lt_of_managed hmanaged.le
  have hp := init_placed (fun _ => 0#64) (strayDescs base pages) hbase hpages hmanaged htop
  have hlimit := limit_init (fun _ => 0#64) (strayDescs base pages) base hint
  unfold searchedPages at hlim
  obtain ⟨ps1, live1, hrun1, hpacked1, -⟩ := packed_singles hp (init_blocks _ _ _ _)
    (fun i => getBit_initSection _ _ _ hint) (pages - 1) (by omega)
  obtain ⟨hs2, hpacked2⟩ := hpacked1.allocn hp (show 1 ≤ 2 by omega) (by omega) (by omega)
  obtain ⟨hs3, hpacked3⟩ := hpacked2.allocn hp (le_refl 1) (by omega) (by omega)
  have hrun := (hrun1.tail (Op.allocn 2) ⟨by omega, by omega⟩ hs2).tail (Op.allocn 1)
    ⟨by omega, by omega⟩ hs3
  rw [show pages - 1 + 2 = pages + 1 by omega] at hrun hpacked3
  generalize hps : grant (grant ps1 (pages - 1) 2) (pages + 1) 1 = ps at hrun hpacked3
  have hp' := hpacked3.placed hp
  have hlimit' := hpacked3.filled.same.limit_eq
  have hblocks := hpacked3.blocks
  have htwo : (⟨pages - 1, 2⟩ : Extent) ∈ ⟨pages + 1, 1⟩ :: ⟨pages - 1, 2⟩ :: live1 := by simp
  have hhas : (⟨pages - 1, 2⟩ : Extent).Has pages := ⟨by simp, by simp only; omega⟩
  have hbase' : ps.paBase = base + 4096 * metaPages pages := hpacked3.filled.same.paBase
  have hdesc : ps.pages pages = ⟨ps.paBase + 4096 * (pages + 1), (1 : Nat)⟩ := by
    rw [hpacked3.rest pages (pos_ne_of_inside hblocks htwo hhas (by simp only; omega)), hbase']
    exact update_self ..
  have hone : (⟨pages + 1, 1⟩ : Extent).Has (pages + 1) := ⟨le_refl _, by simp⟩
  have hscan := pageFreeScan_first hp'.small (by omega) (hblocks.held _ htwo pages hhas)
    ((covers_iff_of_desc hp' (a := ⟨pages + 1, 1⟩) (by simp) (by simp only; omega) hdesc
      (by omega)).2 hone) (fun q hq _ hcovers => by
        obtain ⟨a, ha, rfl, hai⟩ :=
          hpacked3.has_of_covers hp (by omega) (strayDescs_zero hq) hcovers
        rw [eq_of_has hblocks.apart ha List.mem_cons_self hai hone] at hq
        simp only at hq
        omega) (limit ps + 1) 0 (Nat.zero_le _) (by omega)
  refine ⟨_, calls hrun, fun hsafe => ?_⟩
  obtain ⟨s', hs', -, hzeroed, -⟩ := hsafe.2.2 _ List.mem_cons_self (pages + 1) hone
  have hfree := pageFree_eq hp' (i := pages + 1) (by omega)
  rw [hscan] at hfree
  rw [step_free_of (s := ⟨sections ps, _⟩) hfree] at hs'
  cases hs'
  have hkept : (releaseAt ps pages).pages (pages + 1) = ps.pages (pages + 1) :=
    update_of_ne (by omega) ..
  rw [sect_sections, hkept, hblocks.desc _ List.mem_cons_self] at hzeroed
  cases hzeroed

/-- The descriptor of page `pages` lies in page 0, at least with its `count`. The client of that
page clears it, and `page_free` no longer finds the block. -/
theorem not_safe_client (hlim : searchedPages pages = pages + 2)
    (hover : 4096 * metaPages pages < (pages + 63) / 64 * 8 + 16 * (pages + 1)) :
    ∃ s, Steps event allowed
      ⟨sections (initSection (fun _ => 0#64) zeroDescs base pages), []⟩ s ∧ ¬ Safe s := by
  have hmeta := metaPages_le hpages
  have hint := pages_lt_of_managed hmanaged.le
  have hp := init_placed (fun _ => 0#64) zeroDescs hbase hpages hmanaged htop
  have hlimit := limit_init (fun _ => 0#64) zeroDescs base hint
  unfold searchedPages at hlim
  obtain ⟨ps, live, hrun, hpacked, hmem⟩ := packed_singles hp (init_blocks _ _ _ _)
    (fun i => getBit_initSection _ _ _ hint) (pages + 1) (by omega)
  have hp' := hpacked.placed hp
  have hlimit' := hpacked.filled.same.limit_eq
  have hbase' : ps.paBase = base + 4096 * metaPages pages := hpacked.filled.same.paBase
  have hptr : ps.pagesPtr = ptov (base + (pages + 63) / 64 * 8) := hpacked.filled.same.pagesPtr
  let descs := update ps.pages pages ⟨(ps.pages pages).pa, 0⟩
  have hother : ∀ i, i ≠ pages → descs i = ps.pages i := fun i hi => update_of_ne hi ..
  have hself : descs pages = ⟨(ps.pages pages).pa, 0⟩ := update_self ..
  have hstore : allowed ⟨sections ps, live⟩ (.store descs) := by
    intro i
    by_cases hi : i = pages
    · subst hi
      rw [sect_sections, hself]
      refine ⟨fun h => absurd rfl h, fun _ => ⟨⟨0, 1⟩, hmem 0 (by omega), 0, by decide, ?_⟩⟩
      rw [hp'.pageVa_eq (by omega), hptr, ptov_of_lt (by omega), hbase']
      unfold metaPages at hover ⊢
      omega
    · rw [hother i hi, sect_sections]
      exact ⟨fun h => absurd rfl h, fun h => absurd rfl h⟩
  refine ⟨_, (calls hrun).tail (.store descs) hstore rfl, fun hsafe => ?_⟩
  have hone : (⟨pages, 1⟩ : Extent).Has pages := ⟨le_refl _, by simp⟩
  have hlast := hmem pages (by omega)
  obtain ⟨s', hs', -, -, hclear, -⟩ := hsafe.2.2 _ hlast pages hone
  have hfree := pageFree_eq (placed_withDescs hp' descs) (i := pages)
    (by rw [limit_withDescs]; omega)
  cases hscan : pageFreeScan (withDescs ps descs) (pageVa (sections (withDescs ps descs)) pages)
      (limit (withDescs ps descs) + 1) 0 with
  | none =>
    rw [hscan] at hfree
    cases (step_free_of (s := ⟨sections (withDescs ps descs), live⟩) hfree).symm.trans hs'
    have hset := hpacked.blocks.held _ hlast pages hone
    exact absurd (hset.symm.trans hclear) (by decide)
  | some pos =>
    have hcovers := pageFreeScan_some hscan
    unfold Covers at hcovers
    change (descs pos).pa ≠ 0 ∧ ptov (descs pos).pa ≤ _ ∧
      _ < u64 (ptov (descs pos).pa + i32 ((descs pos).count * 4096)) at hcovers
    by_cases hpos : pos = pages
    · -- an empty range covers nothing
      subst hpos
      rw [hself] at hcovers
      obtain ⟨-, hlo, hhi⟩ := hcovers
      simp only [Int.zero_mul] at hlo hhi
      rw [i32_of_lt (by omega) (by omega)] at hhi
      unfold u64 at hhi
      omega
    · rw [hother pos hpos] at hcovers
      obtain ⟨a, ha, rfl, hai⟩ := hpacked.has_of_covers hp (by omega) rfl hcovers
      rw [eq_of_has hpacked.blocks.apart ha hlast hai hone] at hpos
      exact hpos rfl

/-- **The page allocator is safe exactly if its descriptors fit.** In every run from a fresh
section whose array of descriptors reads as zero, with clients that store to their blocks: live
blocks are disjoint and their bits set, and `page_free` of any page of a live block releases
that block and leaves every other one as it was. The section, rounded up to whole bitmap words,
lies in the 48-bit physical address space. -/
theorem page_runs_safe_iff :
    (∀ words descs secs s, (∀ i < pages, descs i = ⟨0, 0⟩) →
      pageInit words descs base pages = .ok secs → Steps event allowed ⟨secs, []⟩ s → Safe s) ↔
      DescsFit pages := by
  have hint := pages_lt_of_managed hmanaged.le
  constructor
  · intro hsafe
    by_contra hfit
    unfold DescsFit at hfit
    by_cases hlim : pages + 3 ≤ searchedPages pages
    · obtain ⟨s, hrun, hbad⟩ := not_safe_stray hbase hpages hmanaged htop hlim
      exact hbad (hsafe _ _ _ s (fun i => strayDescs_zero)
        (pageInit_eq _ _ hbase hpages hint (by omega)) hrun)
    · obtain ⟨s, hrun, hbad⟩ := not_safe_client hbase hpages hmanaged htop (by omega) (by omega)
      exact hbad (hsafe _ _ _ s (fun _ _ => rfl)
        (pageInit_eq _ _ hbase hpages hint (by omega)) hrun)
  · intro hfit words descs secs s hzero hinit hrun
    obtain rfl := init_eq hbase hpages hmanaged htop hinit
    have hstart : Inv ⟨sections (initSection words descs base pages), []⟩ :=
      ⟨_, rfl, init_placed words descs hbase hpages hmanaged htop,
        init_secInv_of_fit words base hmanaged hzero hfit,
        init_descsInside words descs hpages hmanaged htop hfit⟩
    exact (hrun.invariant hstart Inv.event).safe

end

/-- The section of the kernel, and two pages of one block of it. -/
theorem page_runs_safe_kernel :
    DescsFit 16384 ∧ ∃ s, Steps event allowed ⟨sections smallSection, []⟩ s ∧
      s.live = [⟨0, 2⟩] ∧ ∃ s', step s (.free (pageVa s.secs 1)) = some s' ∧ ⟨0, 2⟩ ∉ s'.live := by
  have hlive : (step ⟨sections smallSection, []⟩ (.allocn 2)).map Sys.live = some [⟨0, 2⟩] := by
    decide +kernel
  obtain ⟨s, hs, hl⟩ := Option.map_eq_some_iff.mp hlive
  have hrun : Steps event allowed ⟨sections smallSection, []⟩ s :=
    .tail (.call (.allocn 2)) .refl ⟨by decide, by decide⟩ hs
  have hsafe := (@page_runs_safe_iff 0x40000000 64 (by decide) (by decide) (by decide)
    (by decide)).2 (by decide) _ _ _ s (fun _ _ => rfl) pageInit_small hrun
  obtain ⟨s', hs', hmem, _⟩ := hsafe.2.2 ⟨0, 2⟩ (by simp [hl]) 1 (by decide)
  exact ⟨by decide, s, hrun, hl, s', hs', fun h => ((hmem _).mp h).2 rfl⟩

/-- Two pages at 1 GiB, one of them managed; behind the two descriptors the memory reads as that
of page 3. -/
def twoPages : PageSection :=
  initSection (fun _ => 0#64) (strayDescs 0x40000000 2) 0x40000000 2

/-- Blocks of one, two and one pages. `page_free` of the last one clears the bit of the second
page of the other, and its own bit and descriptor stay. -/
theorem page_free_releases_other :
    (∀ i < 2, strayDescs 0x40000000 2 i = ⟨0, 0⟩) ∧
    pageInit (fun _ => 0#64) (strayDescs 0x40000000 2) 0x40000000 (2 : Nat) =
      .ok (sections twoPages) ∧
    (run step ⟨sections twoPages, []⟩ [.allocn 1, .allocn 2, .allocn 1]).map
      (fun s => (s.live, pageVa s.secs 3)) =
        some ([⟨3, 1⟩, ⟨1, 2⟩, ⟨0, 1⟩], 0xffff000040004000) ∧
    (run step ⟨sections twoPages, []⟩
      [.allocn 1, .allocn 2, .allocn 1, .free 0xffff000040004000]).map
      (fun s => (getBit (sect s.secs).bitmap 2, getBit (sect s.secs).bitmap 3,
        (sect s.secs).pages 3)) = some (false, true, ⟨0x40004000, 1⟩) := by
  refine ⟨fun i => strayDescs_zero, pageInit_eq _ _ (by decide) (by decide) (by decide) (by decide),
    ?_, ?_⟩
  · decide +kernel
  · decide +kernel

end SpringOs.PageDescs
