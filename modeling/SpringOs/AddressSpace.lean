import SpringOs.PageMap

/-!
`pagetable_map` seen from the addresses it maps.

* **`Maps`**: what a call is for: the range leads where it should, every other address
  leads where it did, and nothing outside the page tables was written;
* `pagetable_map_iff`: with the range unmapped and `page_alloc` answering, the call does
  that exactly when `Splittable` holds of the range;
* `pagetable_map_refused`: when `page_alloc` refuses, the translations are what they
  were exactly when it refused before the first page was mapped.
-/

namespace SpringOs.PageTable
open Kernel Lib.Word Lib.Radix

/-! ## The ranges the loops can split -/

/-- Inside 1 GiB; or, from a 1 GiB boundary, inside 512 GiB; or, from a 512 GiB boundary,
inside the 48 bits of a table. -/
def Splittable (va size : Nat) : Prop :=
  va % pudSize + size ≤ pudSize ∨ va % pudSize = 0 ∧ (va % pgdSize + size ≤ pgdSize ∨
    va % pgdSize = 0 ∧ va % 281474976710656 + size ≤ 281474976710656)

instance (va size : Nat) : Decidable (Splittable va size) := inferInstanceAs (Decidable (_ ∨ _))

theorem pgdFits_iff {va k : Nat} (hva : va % 4096 = 0) :
    pgdFits (vpn va) k ↔ Splittable va (4096 * k) := by
  unfold Splittable pgdFits pudFits loopFits pmdFits pudSize pgdSize vpn
  beta_reduce
  split
  · split <;> omega
  · omega

theorem Splittable.within {va size : Nat} (h : Splittable va size) :
    va % 281474976710656 + size ≤ 281474976710656 := by
  unfold Splittable pudSize pgdSize at h
  omega

/-! ## Translations -/

section translate

variable {flags : Flags} {root : Nat} {st st' : PtState} {va pa k a : Nat}

theorem translate_inside (hva : va % 4096 = 0) (hmap : Mapped flags root st st' (vpn va) k pa)
    (hfit : va % 281474976710656 + 4096 * k ≤ 281474976710656) (hlo : va ≤ a)
    (hhi : a < va + 4096 * k) : translate st'.mem root a =
      some ((pa + 4096 * ((a - va) / 4096)) % 281474976710656 + a % 4096) := by
  have hoff : vpn a - vpn va = (a - va) / 4096 := by unfold vpn; omega
  rw [translate_eq, hmap.inside (vpn a) (vpn_lt a) (by unfold vpn; omega) (by unfold vpn; omega),
    hoff]
  rfl

theorem translate_outside (hva : va % 4096 = 0) (hmap : Mapped flags root st st' (vpn va) k pa)
    (hspace : a / 281474976710656 = va / 281474976710656)
    (hout : ¬ (va ≤ a ∧ a < va + 4096 * k)) :
    translate st'.mem root a = translate st.mem root a := by
  have hout' : ¬ (vpn va ≤ vpn a ∧ vpn a < vpn va + k) := by
    unfold vpn
    omega
  rw [translate_eq, translate_eq, (hmap.outside (vpn a) (vpn_lt a) hout').leaf_eq]

theorem translate_of_mapped_zero (hmap : Mapped flags root st st' (vpn va) 0 pa) (a : Nat) :
    translate st'.mem root a = translate st.mem root a := by
  rw [translate_eq, translate_eq, (hmap.outside (vpn a) (vpn_lt a) (by omega)).leaf_eq]

theorem unmapped_of_translate (hst : Tables root st) (hva : va % 4096 = 0)
    (h : ∀ a, va ≤ a → a < va + 4096 * k → translate st.mem root a = none) :
    Unmapped root st (vpn va) k := by
  intro m hm hlo hhi
  have hvpn : vpn (va + 4096 * (m - vpn va)) = m := by
    unfold vpn at *
    omega
  have hnone := h (va + 4096 * (m - vpn va)) (by omega) (by omega)
  rw [translate_eq, hvpn, Option.map_eq_none_iff] at hnone
  exact (hst.leaf_eq_none_iff hm).1 hnone

end translate

/-! ## What a call is for -/

/-- Addresses are taken from the half of the address space that the table serves: those
with the upper 16 bits of `va`. -/
structure Maps (root : Nat) (st st' : PtState) (va pa size : Nat) : Prop where
  frame : ∀ p, (∀ r q, ¬ IsTable st'.mem root r q p) → st'.mem p = st.mem p
  new : ∀ {r q p}, IsTable st'.mem root r q p → IsTable st.mem root r q p ∨ p ∈ st.free
  inside : ∀ a, a / 281474976710656 = va / 281474976710656 → va ≤ a → a < va + size →
    translate st'.mem root a = some (pa + (a - va))
  outside : ∀ a, a / 281474976710656 = va / 281474976710656 → ¬ (va ≤ a ∧ a < va + size) →
    translate st'.mem root a = translate st.mem root a

section maps

variable {flags : Flags} {root : Nat} {st st' : PtState} {va pa k : Nat}

theorem maps_of_mapped (hva : va % 4096 = 0) (hpa : pa % 4096 = 0) (hext : Ext flags root st st')
    (hmap : Mapped flags root st st' (vpn va) k pa)
    (hfit : va % 281474976710656 + 4096 * k ≤ 281474976710656)
    (hphy : pa + 4096 * k ≤ 281474976710656) : Maps root st st' va pa (4096 * k) where
  frame := hext.frame
  new := hext.new
  inside a _ hlo hhi := by
    rw [translate_inside hva hmap hfit hlo hhi]
    congr 1
    omega
  outside a hspace hout := translate_outside hva hmap hspace hout

/-- A descriptor cannot hold a page beyond the 48 bits. -/
theorem Maps.phys_le (hva : va % 4096 = 0) (hpa : pa % 4096 = 0) (hk : 0 < k)
    (hmap : Mapped flags root st st' (vpn va) k pa)
    (hfit : va % 281474976710656 + 4096 * k ≤ 281474976710656)
    (h : Maps root st st' va pa (4096 * k)) : pa + 4096 * k ≤ 281474976710656 := by
  have hlast := h.inside (va + (4096 * k - 1)) (by omega) (by omega) (by omega)
  rw [translate_inside hva hmap hfit (by omega) (by omega), Option.some.injEq] at hlast
  omega

theorem pagetableMap_eq {size : Nat} (h : Accepted va pa size) :
    pagetableMap st root va pa size flags =
      mapPgdRange flags st (ptov root) va pa size >>= fun x =>
        .ok (if x.1 ≠ 0 then -1 else 0, x.2) :=
  if_pos h

theorem Accepted.pages {size : Nat} (h : Accepted va pa size) (hsize : size < 2 ^ 64) :
    PageAddr va ∧ PageAddr pa ∧ ∃ k, 0 < k ∧ size = 4096 * k := by
  obtain ⟨hpos, ⟨hva, -⟩, hpa, hva0, hsize0, hpa0⟩ := h
  unfold vaMax at hva
  unfold paMax at hpa
  rw [pageSize, isAligned_page (by omega), decide_eq_true_eq] at hva0 hsize0 hpa0
  exact ⟨⟨hva0, by omega⟩, ⟨hpa0, by omega⟩, size / 4096, by omega, by omega⟩

end maps

/-- A new address space: a root table of zeros and the pages `page_alloc` has. -/
def newSpace (free : List Nat) : PtState := ⟨fun _ _ => 0, free, false⟩

theorem newSpace_isTable {root : Nat} {free : List Nat} {r q p : Nat}
    (h : IsTable (newSpace free).mem root r q p) : r = 3 ∧ q = 0 ∧ p = root := by
  cases h with
  | root => exact ⟨rfl, rfl, rfl⟩
  | step _ _ hc => cases child_zero.symm.trans hc

theorem newSpace_tables {root : Nat} {free : List Nat} (hroot : root < 2 ^ 48)
    (hnodup : free.Nodup) (hpage : ∀ p ∈ free, p % 4096 = 0 ∧ p < 2 ^ 48) (hfresh : root ∉ free) :
    Tables root (newSpace free) := by
  constructor
  case tree =>
    intro r q r' q' p h h'
    obtain ⟨rfl, rfl, -⟩ := newSpace_isTable h
    obtain ⟨rfl, rfl, -⟩ := newSpace_isTable h'
    exact ⟨rfl, rfl⟩
  case entry => exact fun _ _ => .inl rfl
  case root_lt => exact hroot
  case nodup => exact hnodup
  case page => exact hpage
  case fresh =>
    intro p hp r q h
    obtain ⟨-, -, rfl⟩ := newSpace_isTable h
    exact hfresh hp

theorem exists_of_run {res : Except Fault (Int × PtState)} {ret : Int}
    (h : res.toOption.map Prod.fst = some ret) : ∃ st', res = .ok (ret, st') := by
  cases res with
  | error f => cases h
  | ok x =>
    cases h
    exact ⟨x.2, rfl⟩

theorem newSpace_translate (root : Nat) (free : List Nat) (a : Nat) :
    translate (newSpace free).mem root a = none := by
  have hroot : child ((newSpace free).mem root (pgdIndex a)) = none := child_zero
  rw [translate, hroot]
  rfl

/-- **`pagetable_map`**, for every tree of tables, every range that its own assertions
let pass and that is not mapped yet, and every run in which `page_alloc` returns no null:
it maps the range exactly when the loops can split it and its physical end is in reach of
a descriptor. -/
theorem pagetable_map_iff {root : Nat} {st : PtState} {va pa size : Nat} {flags : Flags}
    (hst : Tables root st) (hacc : Accepted va pa size) (hsize : size < 2 ^ 64)
    (hflags : flags.has vmHuge1G = false)
    (hfree : ∀ a, va ≤ a → a < va + size → translate st.mem root a = none)
    (hnull : ∀ ret st', pagetableMap st root va pa size flags = .ok (ret, st') →
      st'.refused = false) :
    (∃ st', pagetableMap st root va pa size flags = .ok (0, st') ∧
      Maps root st st' va pa size) ↔
    Splittable va size ∧ pa + size ≤ 281474976710656 := by
  obtain ⟨hva, hpa, k, hk, rfl⟩ := hacc.pages hsize
  have hun := unmapped_of_translate hst hva.1 hfree
  have hout : Outcome flags root st _ _ _ _ _ _ := mapPgdRange_outcome hst hva hpa hk
  rw [pagetableMap_eq hacc] at hnull ⊢
  rw [← pgdFits_iff hva.1]
  generalize mapPgdRange flags st (ptov root) va pa (4096 * k) = res at hout hnull ⊢
  cases hout with
  | fault hbad =>
    apply iff_of_false
    · rintro ⟨st', hres, -⟩
      cases hres
    · exact fun h => hbad h.1 hflags hun
  | wild hblock _ => exact absurd (fun m hm hlo hhi _ => hun m hm hlo hhi) hblock
  | @done st' hfits hext hmap _ _ _ =>
    have hfit := ((pgdFits_iff hva.1).1 hfits).within
    rw [and_iff_right hfits]
    constructor
    · rintro ⟨st'', hres, hmaps⟩
      cases hres
      exact hmaps.phys_le hva.1 hpa.1 hk hmap hfit
    · exact fun hphy => ⟨st', rfl, maps_of_mapped hva.1 hpa.1 hext hmap hfit hphy⟩
  | @starved ret st' j hret _ _ _ _ href =>
    have := hnull _ st' rfl
    rw [href] at this
    cases this

theorem pagetable_map_iff_page :
    ∃ st', pagetableMap (newSpace [8192, 12288, 16384]) 4096 1073737728 0 4096 0 = .ok (0, st') ∧
      Maps 4096 (newSpace [8192, 12288, 16384]) st' 1073737728 0 4096 := by
  have hrun : (pagetableMap (newSpace [8192, 12288, 16384]) 4096 1073737728 0 4096 0).toOption.map
      (fun x => x.2.refused) = some false := by decide +kernel
  refine (pagetable_map_iff (newSpace_tables (by decide) (by decide) (by decide) (by decide))
    (by decide +kernel) (by decide) (by decide) (fun _ _ _ => newSpace_translate ..) ?_).2
      (by decide)
  intro ret st' h
  rw [h] at hrun
  exact Option.some.inj hrun

/-- Two pages over a 1 GiB boundary: the table of the second page is looked for past the
end of the first page's level 2 table. -/
theorem pagetable_map_gigabyte_boundary :
    Tables 4096 (newSpace [8192, 12288, 16384, 20480]) ∧ Accepted 1073737728 0 8192 ∧
      (∀ a, translate (newSpace [8192, 12288, 16384, 20480]).mem 4096 a = none) ∧
      pagetableMap (newSpace [8192, 12288, 16384, 20480]) 4096 1073737728 0 8192 0 =
        .error .outOfBounds :=
  ⟨newSpace_tables (by decide) (by decide) (by decide) (by decide), by decide +kernel,
    newSpace_translate 4096 _, rfl⟩

/-- The tables `page_alloc` must supply before the first page of a request is mapped. -/
def firstTables (st : PtState) (root va pa size : Nat) (flags : Flags) : Nat :=
  tablesNeeded (firstBlock flags (vpn va) pa (size / 4096)) (look st.mem root (vpn va))

/-- **`pagetable_map` refused**, for every tree of tables and every request: if
`page_alloc` could not even supply the tables of the first page, all translations are as
before. If they are as before, that was so, or the range met a block, whose data the code
takes for a table. -/
theorem pagetable_map_refused {root : Nat} {st st' : PtState} {va pa size : Nat}
    {flags : Flags} (hst : Tables root st) (hsize : size < 2 ^ 64)
    (hfail : pagetableMap st root va pa size flags = .ok (-1, st')) :
    (st.free.length < firstTables st root va pa size flags →
      ∀ a, translate st'.mem root a = translate st.mem root a) ∧
    ((∀ a, translate st'.mem root a = translate st.mem root a) →
      NoBlock root st (vpn va) (size / 4096) →
      st.free.length < firstTables st root va pa size flags) := by
  have hacc : Accepted va pa size := by
    apply Classical.byContradiction
    intro hacc
    rw [pagetableMap, if_neg hacc] at hfail
    cases hfail
  obtain ⟨hva, hpa, k, hk, rfl⟩ := hacc.pages hsize
  have hout : Outcome flags root st _ _ _ _ _ _ := mapPgdRange_outcome hst hva hpa hk
  rw [pagetableMap_eq hacc] at hfail
  rw [firstTables, Nat.mul_div_cancel_left k (by decide)]
  generalize mapPgdRange flags st (ptov root) va pa (4096 * k) = res at hout hfail
  cases hout with
  | fault hbad => cases hfail
  | wild hblock hneed =>
    exact ⟨fun hshort => absurd hshort (Nat.not_lt.2 hneed), fun _ hno => absurd hno hblock⟩
  | done => cases hfail
  | @starved ret st'' j hret _ hext hmap hneed _ =>
    obtain rfl : st'' = st' := congrArg Prod.snd (Except.ok.inj hfail)
    rw [← hneed]
    constructor
    · rintro rfl
      exact translate_of_mapped_zero hmap
    · intro hsame _
      apply Classical.byContradiction
      intro hj
      -- the first page was null before and leads somewhere now
      have hpage := hsame va
      rw [translate_eq, translate_eq,
        leaf_null (hmap.null _ (vpn_lt va) (Nat.le_refl _) (by omega)),
        hmap.inside _ (vpn_lt va) (Nat.le_refl _) (by omega)] at hpage
      cases hpage

theorem pagetable_map_refused_first_page :
    ∃ st', pagetableMap (newSpace [8192]) 4096 2093056 1048576 8192 0 = .ok (-1, st') ∧
      ∀ a, translate st'.mem 4096 a = translate (newSpace [8192]).mem 4096 a := by
  have hrun : (pagetableMap (newSpace [8192]) 4096 2093056 1048576 8192 0).toOption.map Prod.fst =
      some (-1) := by decide +kernel
  obtain ⟨st', hst'⟩ := exists_of_run hrun
  exact ⟨st', hst', (pagetable_map_refused
    (newSpace_tables (by decide) (by decide) (by decide) (by decide)) (by decide) hst').1
      (by decide +kernel)⟩

/-- Two pages over a 2 MiB boundary, and no page for the second one's table: the call
fails and the first page stays mapped. -/
theorem pagetable_map_keeps_first_page :
    (pagetableMap (newSpace [8192, 12288, 16384]) 4096 2093056 1048576 8192 0).toOption.map
        (fun x => (x.1, translate x.2.mem 4096 2093056)) = some (-1, some 1048576) ∧
      translate (newSpace [8192, 12288, 16384]).mem 4096 2093056 = none := by
  decide +kernel

end SpringOs.PageTable
