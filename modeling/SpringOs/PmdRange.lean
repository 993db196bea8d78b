import SpringOs.AddressSpace

/-!
`map_pmd_range` of `pagetable.c` by itself: one table of level 2, and the tables of level 3
under it.

* `lookPmd_eq`: the walk from the table is the end of the walk from the root;
* `block_of_installed`: where a walk ends at a block, the block lies in the range;
* `Ext.others`: entries that were there, or that no page of the range passes, stay;
* **`map_pmd_range_iff`**: the function maps every range of its gigabyte, head, body and tail,
  exactly as long as the physical pages are within the 48 bits of a descriptor.
-/

namespace SpringOs.PageTable
open Kernel Lib.Word Lib.Radix

/-- Where the walk of page `m` from the table `pmd` ends. -/
def lookPmd (mem : Nat → Nat → Pte) (pmd m : Nat) : Nat × Pte := walk child 512 mem m (vtop pmd) 1

/-- The 2 MiB from page `s` on lie in the `k` pages from `n` on, and they and the physical pages
they are mapped to start at a 2 MiB boundary. -/
structure BlockFits (n k pa s : Nat) : Prop where
  va : s % 512 = 0
  pa : (pa + 4096 * (s - n)) % 2097152 = 0
  lo : n ≤ s
  hi : s + 512 ≤ n + k

/-- What a call is for: the pages of the range lead to their physical pages, by a block only
where one fits, and nothing else has changed. -/
structure MapsRange (root : Nat) (st st' : PtState) (pmd n k pa : Nat) : Prop where
  inside : ∀ j < k, leaf (n + j) (lookPmd st'.mem pmd (n + j)) = some (pa + 4096 * j)
  blocks : ∀ j < k, (lookPmd st'.mem pmd (n + j)).1 = 1 →
    ∃ s, BlockFits n k pa s ∧ s ≤ n + j ∧ n + j < s + 512
  others : ∀ {r q p i}, IsTable st.mem root r q p → i < 512 →
    st.mem p i ≠ 0 ∨ (∀ m, n ≤ m → m < n + k → m / 512 ^ r ≠ 512 * q + i) →
    st'.mem p i = st.mem p i
  fresh : ∀ {r q p i}, IsTable st'.mem root r q p → ¬ IsTable st.mem root r q p → i < 512 →
    (∀ m, n ≤ m → m < n + k → m / 512 ^ r ≠ 512 * q + i) → p ∈ st.free ∧ st'.mem p i = 0
  frame : ∀ p, (∀ r q, ¬ IsTable st'.mem root r q p) → st'.mem p = st.mem p

section

variable {flags : Flags} {root : Nat} {st st' : PtState} {pmd base pa n k m : Nat}

theorem lookPmd_eq {mem : Nat → Nat → Pte} {q : Nat} (hp : IsTable mem root 1 q (vtop pmd))
    (hm : m / 262144 = q) : lookPmd mem pmd m = look mem root m :=
  (look_of_table hp hm).symm

theorem block_of_installed {x : Nat × Pte} (h : Installed flags n k pa m x) (hx : x.1 = 1) :
    ∃ s, BlockFits n k pa s ∧ s ≤ m ∧ m < s + 512 := by
  rcases h with hpage | ⟨s, hs, hlo, hhi, hle, hlt, hal, -⟩
  · rw [hpage] at hx
    cases hx
  · exact ⟨s, ⟨hs, hal, hlo, hhi⟩, hle, hlt⟩

theorem Ext.others (hext : Ext flags root st st') (hframe : Frame root st st' n k) {r q p i : Nat}
    (hp : IsTable st.mem root r q p) (hi : i < 512)
    (h : st.mem p i ≠ 0 ∨ ∀ m, n ≤ m → m < n + k → m / 512 ^ r ≠ 512 * q + i) :
    st'.mem p i = st.mem p i := by
  by_cases hnull : st.mem p i = 0
  · have hoff := h.resolve_left (not_not.2 hnull)
    rcases hframe.off (hext.grow hp) hi hoff with ⟨-, heq⟩ | ⟨-, hzero⟩
    · exact heq
    · rw [hzero, hnull]
  · exact hext.keep hp hnull

theorem Frame.fresh (hframe : Frame root st st' n k) {r q p i : Nat}
    (hp : IsTable st'.mem root r q p) (hnew : ¬ IsTable st.mem root r q p) (hi : i < 512)
    (hoff : ∀ m, n ≤ m → m < n + k → m / 512 ^ r ≠ 512 * q + i) :
    p ∈ st.free ∧ st'.mem p i = 0 :=
  (hframe.off hp hi hoff).resolve_left fun h => hnew h.1

theorem page_under (hfit : pmdFits n k) {j : Nat} (hj : j < k) :
    (n + j) / 262144 = n / 262144 := by
  unfold pmdFits at hfit
  omega

theorem mapsRange_iff (hp : IsTable st.mem root 1 (n / 262144) (vtop pmd))
    (hn : n < 68719476736) (hfit : pmdFits n k) (hk : 0 < k) (hext : Ext flags root st st')
    (hmap : Mapped flags root st st' n k pa) (hframe : Frame root st st' n k)
    (hpa : pa % 4096 = 0) :
    MapsRange root st st' pmd n k pa ↔ pa + 4096 * k ≤ 281474976710656 := by
  have hlt : n + k ≤ 68719476736 := by
    unfold pmdFits at hfit
    omega
  have hlook : ∀ j < k, lookPmd st'.mem pmd (n + j) = look st'.mem root (n + j) := fun j hj =>
    lookPmd_eq (hext.grow hp) (page_under hfit hj)
  have hleaf : ∀ j < k, leaf (n + j) (lookPmd st'.mem pmd (n + j)) =
      some ((pa + 4096 * j) % 281474976710656) := by
    intro j hj
    rw [hlook j hj, hmap.inside (n + j) (by omega) (by omega) (by omega), Nat.add_sub_cancel_left]
  constructor
  · intro h
    -- the last page of the range is the first to leave the 48 bits
    have hlast := h.inside (k - 1) (by omega)
    rw [hleaf (k - 1) (by omega), Option.some.injEq] at hlast
    omega
  · intro hphy
    constructor
    case inside =>
      intro j hj
      rw [hleaf j hj, Nat.mod_eq_of_lt (by omega)]
    case blocks =>
      intro j hj hone
      rw [hlook j hj] at hone
      exact block_of_installed (hmap.installed (n + j) (by omega) (by omega) (by omega)) hone
    case others => exact fun hp' hi h => hext.others hframe hp' hi h
    case fresh => exact fun hp' hnew hi hoff => hframe.fresh hp' hnew hi hoff
    case frame => exact hext.frame

theorem unmapped_of_pmd (hst : Tables root st)
    (hp : IsTable st.mem root 1 (n / 262144) (vtop pmd)) (hfit : pmdFits n k)
    (hfree : ∀ j < k, leaf (n + j) (lookPmd st.mem pmd (n + j)) = none) :
    Unmapped root st n k := by
  intro m hm hlo hhi
  have hnone := hfree (m - n) (by omega)
  rw [Nat.add_sub_cancel' hlo, lookPmd_eq hp] at hnone
  · exact (hst.leaf_eq_none_iff hm).1 hnone
  · have := page_under hfit (show m - n < k by omega)
    rwa [Nat.add_sub_cancel' hlo] at this

end

/-- **`map_pmd_range`**, for every tree of tables with the table `pmd` in it, every range of its
gigabyte of which no page is mapped, all flags but that for 1 GiB blocks, and every run in which
`page_alloc` returns no null. The call ends with 0, passes no assertion that fails and no entry
past the last one. It maps the range, and changes nothing else, exactly when the physical range
ends within 48 bits. -/
theorem map_pmd_range_iff {root : Nat} {st : PtState} {pmd base pa k : Nat} {flags : Flags}
    (hst : Tables root st) (hp : IsTable st.mem root 1 (vpn base / 262144) (vtop pmd))
    (hbase : PageAddr base) (hpa : PageAddr pa) (hk : 0 < k)
    (hregion : base % 1073741824 + 4096 * k ≤ 1073741824) (hflags : flags.has vmHuge1G = false)
    (hfree : ∀ j < k, leaf (vpn base + j) (lookPmd st.mem pmd (vpn base + j)) = none)
    (hnull : ∀ ret st', mapPmdRange flags st pmd base pa (4096 * k) = .ok (ret, st') →
      st'.refused = false) :
    ∃ st', mapPmdRange flags st pmd base pa (4096 * k) = .ok (0, st') ∧
      (MapsRange root st st' pmd (vpn base) k pa ↔ pa + 4096 * k ≤ 281474976710656) := by
  have hfit : pmdFits (vpn base) k := by
    have := hbase.1
    unfold pmdFits vpn
    omega
  have hun := unmapped_of_pmd hst hp hfit hfree
  have hout : Outcome flags root st _ _ _ _ _ _ :=
    mapPmdRange_outcome hst hp hbase hpa hk (by omega)
  generalize mapPmdRange flags st pmd base pa (4096 * k) = res at hout hnull
  cases hout with
  | fault hbad => exact absurd hun (hbad hfit hflags)
  | wild hblock _ => exact absurd (fun m hm hlo hhi _ => hun m hm hlo hhi) hblock
  | @done st' _ hext hmap hframe _ _ =>
    exact ⟨st', rfl, mapsRange_iff hp (vpn_lt base) hfit hk hext hmap hframe hpa.1⟩
  | @starved ret st' j _ _ _ _ _ href =>
    have := hnull ret st' rfl
    rw [href] at this
    cases this

/-! ## A table to try it on -/

/-- An address space with one empty table of level 2, at `0x3000`. -/
def pmdSpace (free : List Nat) : PtState :=
  withTable (withTable (newSpace (8192 :: 12288 :: free)) (ptov 4096) 0 8192 (12288 :: free) 0)
    (ptov 8192) 0 12288 free 0

theorem pmdSpace_tables {free : List Nat} (hnodup : (4096 :: 8192 :: 12288 :: free).Nodup)
    (hpage : ∀ p ∈ free, p % 4096 = 0 ∧ p < 2 ^ 48) :
    Tables 4096 (pmdSpace free) ∧ IsTable (pmdSpace free).mem 4096 1 0 (vtop (ptov 12288)) := by
  obtain ⟨hroot, hnodup⟩ := List.nodup_cons.1 hnodup
  have hpages : ∀ p ∈ 8192 :: 12288 :: free, p % 4096 = 0 ∧ p < 2 ^ 48 := by
    intro p hmem
    rcases List.mem_cons.1 hmem with rfl | hmem
    · decide
    · rcases List.mem_cons.1 hmem with rfl | hmem
      · decide
      · exact hpage p hmem
  have hnew := newSpace_tables (by decide) hnodup hpages hroot
  have htop : IsTable (newSpace (8192 :: 12288 :: free)).mem 4096 3 0 (vtop (ptov 4096)) := .root
  have hone := withTable_ext (i := 0) 0 hnew htop (by decide) rfl rfl
  have hpud : IsTable (withTable (newSpace (8192 :: 12288 :: free)) (ptov 4096) 0 8192
      (12288 :: free) 0).mem 4096 2 0 (vtop (ptov 8192)) :=
    (withTable_attach (i := 0) 0 hnew htop (by decide) rfl rfl).1.2 (.inr ⟨rfl, rfl, rfl⟩)
  have hnull : (withTable (newSpace (8192 :: 12288 :: free)) (ptov 4096) 0 8192
      (12288 :: free) 0).mem (vtop (ptov 8192)) 0 = 0 := by
    rw [withTable_entry (by decide), if_neg (by decide)]
    rfl
  exact ⟨(withTable_ext 0 hone.tables hpud (by decide) hnull rfl).tables,
    (withTable_attach 0 hone.tables hpud (by decide) hnull rfl).1.2 (.inr ⟨rfl, rfl, rfl⟩)⟩

theorem pmdSpace_empty (free : List Nat) (j : Nat) :
    leaf j (lookPmd (pmdSpace free).mem (ptov 12288) j) = none := by
  have hentry : (pmdSpace free).mem (vtop (ptov 12288)) (j / 512 ^ 1 % 512) = 0 := by
    have hne : ¬ (vtop (ptov 12288) = vtop (ptov 8192) ∧ j / 512 ^ 1 % 512 = 0) := fun h =>
      absurd h.1 (by decide)
    rw [pmdSpace, withTable_entry (by decide), if_neg hne]
    rfl
  rw [lookPmd, walk_of_none (.inr (hentry ▸ child_zero)), hentry]
  rfl

/-- A head of one page, then two blocks. -/
theorem map_pmd_range_head_and_blocks :
    ∃ st', mapPmdRange vmHuge2M (pmdSpace [16384]) (ptov 12288) 0x1ff000 0x3ff000 (4096 * 1025) =
        .ok (0, st') ∧
      MapsRange 4096 (pmdSpace [16384]) st' (ptov 12288) (vpn 0x1ff000) 1025 0x3ff000 := by
  have hrun : (mapPmdRange vmHuge2M (pmdSpace [16384]) (ptov 12288) 0x1ff000 0x3ff000
      (4096 * 1025)).toOption.map (fun x => x.2.refused) = some false := by decide +kernel
  have hspace : Tables 4096 (pmdSpace [16384]) ∧
      IsTable (pmdSpace [16384]).mem 4096 1 (vpn 0x1ff000 / 262144) (vtop (ptov 12288)) :=
    pmdSpace_tables (by decide) (by decide)
  have hnull : ∀ ret st', mapPmdRange vmHuge2M (pmdSpace [16384]) (ptov 12288) 0x1ff000 0x3ff000
      (4096 * 1025) = .ok (ret, st') → st'.refused = false := by
    intro ret st' h
    rw [h] at hrun
    exact Option.some.inj hrun
  obtain ⟨st', hok, hiff⟩ := map_pmd_range_iff hspace.1 hspace.2 ⟨by decide, by decide⟩
    ⟨by decide, by decide⟩ (by decide) (by decide) (by decide) (fun j _ => pmdSpace_empty _ _) hnull
  exact ⟨st', hok, hiff.2 (by decide)⟩

/-- Two pages at the end of the physical addresses: the second one is mapped to page 0. -/
theorem map_pmd_range_physical_end :
    Tables 4096 (pmdSpace [16384]) ∧
    IsTable (pmdSpace [16384]).mem 4096 1 (vpn 0 / 262144) (vtop (ptov 12288)) ∧
    (∀ j, leaf j (lookPmd (pmdSpace [16384]).mem (ptov 12288) j) = none) ∧
    (mapPmdRange 0 (pmdSpace [16384]) (ptov 12288) 0 0xfffffffff000 (4096 * 2)).toOption.map
        (fun x => (x.1, x.2.refused, leaf 0 (lookPmd x.2.mem (ptov 12288) 0),
          leaf 1 (lookPmd x.2.mem (ptov 12288) 1))) =
      some (0, false, some 0xfffffffff000, some 0) :=
  ⟨(pmdSpace_tables (by decide) (by decide)).1, (pmdSpace_tables (by decide) (by decide)).2,
    pmdSpace_empty _, by decide +kernel⟩

end SpringOs.PageTable
