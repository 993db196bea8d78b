import SpringOs.PageRuns

/-!
The counter `free` of a section against its bitmap. `page_free` adds the whole
block to the counter but clears one bit only, and an allocation may reach past
the managed pages, so the two agree along a run only under two conditions:

* `release_accounted_iff`, `release_clears_iff`: after `page_free` the counter is
  right, and the block's pages are allocatable, exactly when the block was a
  single page;
* `grant_accounted_iff`: after `page_allocn` the counter is right exactly when
  the request fits the managed pages;
* `page_account_single`: in runs that keep to both, the counter is always right
  and an empty section is as good as a fresh one.
-/

namespace SpringOs.PageAccount
open Lib.Word Lib.Machine Lib.Ranges Bitmap Kernel PageAlloc PageRuns

/-- `free` counts the clear bits of the managed pages. -/
def Accounted (ps : PageSection) : Prop :=
  ps.free = ps.nrPages - setCount ps.bitmap ps.nrPages.toNat

/-- The request is served inside the managed pages, or not at all. -/
def Fits (ps : PageSection) (count : Nat) : Prop :=
  (∃ p, FreeArea ps.bitmap (bitmapSize ps.nrPages) count p ∧ (p + count : Int) ≤ ps.nrPages) ∨
    ∀ p, ¬ FreeArea ps.bitmap (bitmapSize ps.nrPages) count p

/-- A client that frees only single pages and never asks for more than fits. -/
def okSingle (s : Sys) : Op → Prop
  | .allocn count => (1 ≤ count ∧ count ≤ 512) ∧ Fits (sect s.secs) count
  | .free ptr => ∃ a ∈ s.live, a.len = 1 ∧ ∃ i, a.Has i ∧ ptr = pageVa s.secs i

/-- The section against the one the run started with, `p0`: the bitmap is the
initial one with the live blocks set, the blocks lie among the `nr` managed
pages, and the counter is right. -/
structure AccInv (p0 : PageSection) (nr : Nat) (ps : PageSection) (live : List Extent) : Prop where
  pages : ps.nrPages = nr
  fresh : p0.nrPages = nr
  base : ps.paBase = p0.paBase
  fits : nr ≤ limit ps
  clear : ∀ i < limit ps, getBit p0.bitmap i = false
  bits : ∀ i, getBit ps.bitmap i = true ↔ getBit p0.bitmap i = true ∨ ∃ a ∈ live, a.Has i
  inside : ∀ a ∈ live, a.pos + a.len ≤ nr
  counted : Accounted ps

variable {p0 : PageSection} {nr : Nat} {ps : PageSection} {live : List Extent}

theorem setCount_le (b : BitmapT) (n : Nat) : setCount b n ≤ n := by
  induction n with
  | zero => exact Nat.le_refl 0
  | succ n ih =>
    have := Bool.toNat_le (getBit b n)
    rw [setCount]
    omega

/-! ## Allocation -/

variable {count pos : Nat} {a : Extent}

/-- First fit: a request that fits is served inside the managed pages. -/
theorem FirstFree.end_le (h : FirstFree ps count pos) (hfits : Fits ps count) :
    (pos + count : Int) ≤ ps.nrPages := by
  rcases hfits with ⟨p, hp, hend⟩ | hnone
  · have hle : pos ≤ p := by
      by_contra hlt
      exact h.2 p (by omega) hp
    omega
  · exact absurd h.1 (hnone pos)

theorem fits_iff_of_firstFree (h : FirstFree ps count pos) :
    Fits ps count ↔ (pos + count : Int) ≤ ps.nrPages :=
  ⟨FirstFree.end_le h, fun hend => .inl ⟨pos, h.1, hend⟩⟩

/-- The counter after an area has been handed out. -/
theorem grant_accounted_iff (hp : Placed ps) (h : AccInv p0 nr ps live) (hcount : 1 ≤ count)
    (hmax : count ≤ 512) (hfree : FirstFree ps count pos) :
    Accounted (grant ps pos count) ↔ Fits ps count := by
  have hcounted := h.counted
  have hle := setCount_le ps.bitmap nr
  have hsmall := hp.small
  have hnr := h.fits
  rw [fits_iff_of_firstFree hfree]
  unfold Accounted at *
  simp only [grant, h.pages, Int.toNat_natCast] at hcounted ⊢
  rw [setCount_setBits hfree.1.1, i32_of_lt (by omega) (by omega), hcounted]
  omega

theorem AccInv.grant (hp : Placed ps) (h : AccInv p0 nr ps live) (hcount : 1 ≤ count)
    (hmax : count ≤ 512) (hfree : FirstFree ps count pos) (hfits : Fits ps count) :
    AccInv p0 nr (grant ps pos count) (⟨pos, count⟩ :: live) := by
  refine ⟨h.pages, h.fresh, h.base, by simpa using h.fits, by simpa using h.clear, ?_, ?_,
    (grant_accounted_iff hp h hcount hmax hfree).mpr hfits⟩
  · intro i
    simp only [PageAlloc.grant, getBit_setBits, Bool.or_eq_true, decide_eq_true_eq, h.bits i,
      List.mem_cons, exists_eq_or_imp, Extent.Has]
    tauto
  · intro a ha
    rcases List.mem_cons.mp ha with rfl | ha
    · have := FirstFree.end_le hfree hfits
      rw [h.pages] at this
      simp only
      omega
    · exact h.inside a ha

/-! ## Release -/

/-- The counter after a block has been released. -/
theorem release_accounted_iff (hp : Placed ps) (hi : SecInv ps live) (h : AccInv p0 nr ps live)
    (ha : a ∈ live) : Accounted (releaseAt ps a.pos) ↔ a.len = 1 := by
  obtain ⟨hlen, hmax, _⟩ := hi.size a ha
  have hcounted := h.counted
  have hle := setCount_le ps.bitmap nr
  have hsmall := hp.small
  have hnr := h.fits
  have hend := h.inside a ha
  have hbit := hi.held a ha a.pos ⟨le_refl _, by omega⟩
  have hflip := setCount_clearBit hbit nr
  rw [if_pos (by omega)] at hflip
  unfold Accounted at *
  simp only [releaseAt, h.pages, Int.toNat_natCast, hi.desc a ha] at hcounted ⊢
  rw [i32_of_lt (by omega) (by omega), hcounted]
  omega

/-- The pages of a released block are allocatable again exactly when it was a
single page: only the bit of the first page is cleared. -/
theorem release_clears_iff (hi : SecInv ps live) (ha : a ∈ live) :
    (∀ j, a.Has j → getBit (releaseAt ps a.pos).bitmap j = false) ↔ a.len = 1 := by
  have hlen := (hi.size a ha).1
  simp only [releaseAt, getBit_clearBit]
  constructor
  · intro h
    by_contra hne
    have hhas : a.Has (a.pos + 1) := ⟨by omega, by omega⟩
    have hclear := h (a.pos + 1) hhas
    simp [hi.held a ha _ hhas] at hclear
  · intro hone j hj
    obtain rfl : j = a.pos := by
      unfold Extent.Has at hj
      omega
    simp

theorem AccInv.releaseAt (hp : Placed ps) (hi : SecInv ps live) (h : AccInv p0 nr ps live)
    (ha : a ∈ live) (hone : a.len = 1) {live' : List Extent}
    (hmem : ∀ b, b ∈ live' ↔ b ∈ live ∧ b ≠ a) : AccInv p0 nr (releaseAt ps a.pos) live' := by
  refine ⟨h.pages, h.fresh, h.base, by simpa using h.fits, by simpa using h.clear, ?_, ?_,
    (release_accounted_iff hp hi h ha).mpr hone⟩
  · intro i
    have hlt := (hi.size a ha).2.2
    simp only [PageAlloc.releaseAt, getBit_clearBit, Bool.and_eq_true, decide_eq_true_eq, h.bits i]
    constructor
    · rintro ⟨hne, hb | ⟨b, hb, hbi⟩⟩
      · exact .inl hb
      · refine .inr ⟨b, (hmem b).mpr ⟨hb, ?_⟩, hbi⟩
        rintro rfl
        unfold Extent.Has at hbi
        omega
    · rintro (hb | ⟨b, hb, hbi⟩)
      · refine ⟨?_, .inl hb⟩
        rintro rfl
        simp [h.clear a.pos (by omega)] at hb
      · obtain ⟨hb, hne⟩ := (hmem b).mp hb
        refine ⟨?_, .inr ⟨b, hb, hbi⟩⟩
        rintro rfl
        exact hne (eq_of_has hi.apart hb ha hbi ⟨le_refl _, by omega⟩)
  · intro b hb
    exact h.inside b ((hmem b).mp hb).1

/-! ## Runs -/

def Inv (p0 : PageSection) (nr : Nat) (s : Sys) : Prop :=
  ∃ ps, s.secs = sections ps ∧ Placed ps ∧ SecInv ps s.live ∧ AccInv p0 nr ps s.live

theorem step_inv (s : Sys) (op : Op) (s' : Sys) (hs : Inv p0 nr s) (hop : okSingle s op)
    (h : step s op = some s') : Inv p0 nr s' := by
  obtain ⟨secs, live⟩ := s
  obtain ⟨ps, rfl, hp, hi, hacc⟩ := hs
  cases op with
  | allocn count =>
    obtain ⟨⟨hcount, hmax⟩, hfits⟩ := hop
    rcases step_allocn hp live hcount hmax with ⟨he, _⟩ | ⟨pos, hfree, he⟩
    · obtain rfl := Option.some.inj (he.symm.trans h)
      exact ⟨ps, rfl, hp, hi, hacc⟩
    · obtain rfl := Option.some.inj (he.symm.trans h)
      exact ⟨_, rfl, hp.grant pos count, SecInv.grant hp hi hcount hmax hfree.1,
        hacc.grant hp hcount hmax hfree hfits⟩
  | free ptr =>
    obtain ⟨a, ha, hone, i, hai, hptr⟩ := hop
    rw [hptr, step_free hp hi ha hai] at h
    obtain rfl := Option.some.inj h
    have hmem := mem_filter_has hi.apart ha hai
    exact ⟨_, rfl, hp.releaseAt a.pos, hi.releaseAt ha List.filter_sublist hmem,
      hacc.releaseAt hp hi ha hone hmem⟩

theorem init_accInv (words : BitmapT) (descs : Nat → Page) (base : Nat) {pages : Nat}
    (hint : pages + 63 < 2147483648) :
    AccInv (initSection words descs base pages) (managedPages pages)
      (initSection words descs base pages) [] := by
  have hlim := limit_init words descs base hint
  have hclear := fun i => getBit_initSection words descs base (i := i) hint
  have hfits : managedPages pages ≤ limit (initSection words descs base pages) := by omega
  refine ⟨rfl, rfl, rfl, hfits, hclear, by simp, by simp, ?_⟩
  have hzero := setCount_eq_zero (n := managedPages pages) (fun i hi => hclear i (by omega))
  change (managedPages pages : Int) = managedPages pages - setCount _ (managedPages pages)
  rw [hzero]
  omega

theorem AccInv.bitmap_eq (h : AccInv p0 nr ps []) : ps.bitmap = p0.bitmap := by
  refine bitmap_ext ?_
  intro i
  have hbit := h.bits i
  simp only [List.not_mem_nil, false_and, exists_false, or_false] at hbit
  exact Bool.eq_iff_iff.mpr hbit

/-- The bookkeeping of a section that started out as `fresh`: the counter is
right, and once every block has been freed the bitmap is the initial one and
every request that succeeded then succeeds again. -/
structure Balanced (fresh : List PageSection) (s : Sys) : Prop where
  counted : Accounted (sect s.secs)
  restored : s.live = [] → (sect s.secs).bitmap = (sect fresh).bitmap ∧
    ∀ count va secs, pageAllocn fresh count = .ok (some va, secs) →
      ∃ secs', pageAllocn s.secs count = .ok (some va, secs')

/-- The address `page_allocn` returns depends on the bitmap and the place of the
section alone. -/
theorem pageAllocn_congr {ps' : PageSection} (hbitmap : ps'.bitmap = ps.bitmap)
    (hpages : ps'.nrPages = ps.nrPages) (hbase : ps'.paBase = ps.paBase) {count : Int} {va : Nat}
    {secs : List PageSection} (h : pageAllocn (sections ps) count = .ok (some va, secs)) :
    ∃ secs', pageAllocn (sections ps') count = .ok (some va, secs') := by
  have hfst : (pageAllocnSect ps' count).1 = (pageAllocnSect ps count).1 := by
    simp only [pageAllocnSect, hbitmap, hpages, hbase]
    split <;> rfl
  have hloop : (pageAllocnLoop count (sections ps')).1 =
      (pageAllocnLoop count (sections ps)).1 := by
    unfold sections
    rw [pageAllocnLoop.eq_2, pageAllocnLoop.eq_2]
    rcases h1 : pageAllocnSect ps' count with ⟨r', q'⟩
    rcases h2 : pageAllocnSect ps count with ⟨r, q⟩
    obtain rfl : r' = r := by simpa [h1, h2] using hfst
    cases r' with
    | none => rfl
    | some page => rfl
  unfold pageAllocn at *
  split at h
  · exact absurd h (by simp)
  · rename_i hle
    rw [if_neg hle]
    simp only [Except.ok.injEq, Prod.mk.injEq] at h
    exact ⟨_, by simp only [hloop, h.1]; rfl⟩

theorem balanced_of_inv {secs : List PageSection} {s : Sys} (hsecs : secs = sections p0)
    (h : Inv p0 nr s) : Balanced secs s := by
  obtain ⟨secs', live⟩ := s
  obtain ⟨ps, rfl, _, _, hacc⟩ := h
  refine ⟨hacc.counted, ?_⟩
  rintro rfl
  rw [hsecs]
  refine ⟨hacc.bitmap_eq, ?_⟩
  intro count va secs hok
  exact pageAllocn_congr hacc.bitmap_eq (hacc.pages.trans hacc.fresh.symm) hacc.base hok

/-- **The counter and the bitmap.** In every run that frees single pages only
and whose requests fit, the bookkeeping is right in every state; and from any
such state one more call keeps it right exactly when it meets the same
conditions. -/
theorem page_account_single (words : BitmapT) (base pages : Nat) (hbase : base % 4096 = 0)
    (hpages : 0 < pages) (hmanaged : managedPages pages < 524288)
    (htop : base + 4096 * pages + 262144 ≤ 2 ^ 48) {secs : List PageSection}
    (hinit : pageInit words zeroDescs base pages = .ok secs) {s : Sys}
    (hrun : Steps step okSingle ⟨secs, []⟩ s) :
    Balanced secs s ∧
    (∀ count s', 1 ≤ count → count ≤ 512 → step s (.allocn count) = some s' →
      (Accounted (sect s'.secs) ↔ Fits (sect s.secs) count)) ∧
    ∀ a ∈ s.live, ∀ i, a.Has i → ∃ s', step s (.free (pageVa s.secs i)) = some s' ∧
      (Accounted (sect s'.secs) ↔ a.len = 1) ∧
      ((∀ j, a.Has j → getBit (sect s'.secs).bitmap j = false) ↔ a.len = 1) := by
  obtain rfl := init_eq hbase hpages hmanaged htop hinit
  have hinv : Inv (initSection words zeroDescs base pages) (managedPages pages) s :=
    hrun.invariant ⟨_, rfl, init_placed words zeroDescs hbase hpages hmanaged htop,
      init_secInv fun _ _ => rfl,
      init_accInv words zeroDescs base (pages_lt_of_managed hmanaged.le)⟩ step_inv
  refine ⟨balanced_of_inv rfl hinv, ?_, ?_⟩
  · intro count s' hcount hmax hs
    obtain ⟨secs, live⟩ := s
    obtain ⟨ps, rfl, hp, hi, hacc⟩ := hinv
    rcases step_allocn hp live hcount hmax with ⟨he, hnone⟩ | ⟨pos, hfree, he⟩
    · obtain rfl := Option.some.inj (he.symm.trans hs)
      exact iff_of_true hacc.counted (.inr hnone)
    · obtain rfl := Option.some.inj (he.symm.trans hs)
      exact grant_accounted_iff hp hacc hcount hmax hfree
  · intro a ha i hai
    obtain ⟨secs, live⟩ := s
    obtain ⟨ps, rfl, hp, hi, hacc⟩ := hinv
    exact ⟨_, step_free hp hi ha hai, release_accounted_iff hp hi hacc ha,
      release_clears_iff hi ha⟩

theorem page_account_single_page :
    Fits smallSection 1 ∧ ∃ s, Steps step okSingle ⟨sections smallSection, []⟩ s ∧
      s.live = [⟨0, 1⟩] ∧ Balanced (sections smallSection) s := by
  have hfits : Fits smallSection 1 := by
    refine .inl ⟨0, ⟨?_, by decide +kernel⟩, by decide +kernel⟩
    intro q _ hq
    obtain rfl : q = 0 := by omega
    decide +kernel
  have hlive : (step ⟨sections smallSection, []⟩ (.allocn 1)).map Sys.live = some [⟨0, 1⟩] := by
    decide +kernel
  obtain ⟨s, hs, hl⟩ := Option.map_eq_some_iff.mp hlive
  have hrun : Steps step okSingle ⟨sections smallSection, []⟩ s :=
    .tail (.allocn 1) .refl ⟨⟨by decide, by decide⟩, hfits⟩ hs
  exact ⟨hfits, s, hrun, hl, (page_account_single (fun _ => 0#64) 0x40000000 64
    (by decide) (by decide) (by decide) (by decide) pageInit_small hrun).1⟩

def served (secs : List PageSection) (count : Int) : Bool :=
  match pageAllocn secs count with
  | .ok (some _, _) => true
  | _ => false

/-- Two pages allocated and freed: the counter is back at 63 and no block is
live, but one bit is still set, and the fresh section's room for 62 pages is
gone. -/
theorem page_free_leaks_page :
    ∃ s, Steps step ok ⟨sections smallSection, []⟩ s ∧ s.live = [] ∧
      (sect s.secs).free = 63 ∧ setCount (sect s.secs).bitmap 63 = 1 ∧
      ¬ Accounted (sect s.secs) ∧
      served (sections smallSection) 62 = true ∧ served s.secs 62 = false := by
  have hstep : (step ⟨sections smallSection, []⟩ (.allocn 2)).map
      (fun s => (s.live, pageVa s.secs 0)) = some ([⟨0, 2⟩], 0xffff000040001000) := by
    decide +kernel
  obtain ⟨s, hs, hl⟩ := Option.map_eq_some_iff.mp hstep
  simp only [Prod.mk.injEq] at hl
  have hfree : ((step ⟨sections smallSection, []⟩ (.allocn 2)).bind
      (step · (.free 0xffff000040001000))).map (fun s => (s.live, (sect s.secs).free,
        (sect s.secs).nrPages, setCount (sect s.secs).bitmap 63, served s.secs 62)) =
      some ([], 63, 63, 1, false) := by
    decide +kernel
  rw [hs, Option.bind_some] at hfree
  obtain ⟨s', hs', hl'⟩ := Option.map_eq_some_iff.mp hfree
  simp only [Prod.mk.injEq] at hl'
  obtain ⟨hlive, hcount, hnr, hset, hserved⟩ := hl'
  refine ⟨s', ?_, hlive, hcount, hset, ?_, by decide +kernel, hserved⟩
  · refine .tail (.free 0xffff000040001000)
      (.tail (.allocn 2) .refl ⟨by decide, by decide⟩ hs) ?_ hs'
    exact ⟨⟨0, 2⟩, by simp [hl.1], 0, by decide, hl.2.symm⟩
  · unfold Accounted
    rw [hcount, hnr, show (63 : Int).toNat = 63 from rfl, hset]
    decide

end SpringOs.PageAccount
