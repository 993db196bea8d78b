import SpringOs.PageWalk
import SpringOs.Lib.Bytes
import SpringOs.Lib.Machine
import SpringOs.Lib.Ranges

/-!
The address space of a process while the kernel fills it: calls of `pagetable_map`, and
data written to memory that is no page table.

* **`Grown`**: a later state of the space, with what was written and what was mapped in
  between; it keeps the translations there were and the memory nobody wrote;
* `grown_copy`, **`pagetableMap_range`**: the two ways to get there;
* `pgtblWalk_of_translate`: in a space without blocks the walk in software is right for
  memory below 64 GiB;
* **`pagetableMap_returns`**: with a table to spare for each 2 MiB, and four more, a range
  inside 1 GiB is mapped.
-/

namespace SpringOs.PageTable
open Kernel Lib.Word Lib.Radix Lib.Bytes Lib.Machine Lib.Ranges

def page (p : Nat) : Extent := ⟨p, 4096⟩

/-- `written` are the bytes the kernel wrote as data, `mapped` the page numbers that came
to lead somewhere. -/
structure Grown (root : Nat) (written mapped : List Extent) (pt pt' : PtState) : Prop where
  tables : Tables root pt'
  flat : Flat root pt'.mem
  grow : ∀ {r q p}, IsTable pt.mem root r q p → IsTable pt'.mem root r q p
  keep : ∀ {r q p i}, IsTable pt.mem root r q p → pt.mem p i ≠ 0 → pt'.mem p i = pt.mem p i
  new : ∀ {r q p}, IsTable pt'.mem root r q p → IsTable pt.mem root r q p ∨ p ∈ pt.free
  suffix : pt'.free <:+ pt.free
  refused : pt'.refused = pt.refused
  frame : ∀ p, (∀ e ∈ written, (page p).Apart e) → (∀ r q, ¬ IsTable pt'.mem root r q p) →
    pt'.mem p = pt.mem p
  same : ∀ m < 68719476736, (∀ e ∈ mapped, ¬ e.Has m) →
    Same (look pt.mem root m) (look pt'.mem root m)

/-- A range that meets no table, and no page that may still become one. -/
structure Clear (root : Nat) (pt : PtState) (b : Extent) : Prop where
  tables : ∀ {r q p}, IsTable pt.mem root r q p → (page p).Apart b
  free : ∀ p ∈ pt.free, (page p).Apart b

/-- A translation depends on the tables it passes, and there on entries that are not zero. -/
theorem translate_of_keep {root : Nat} {mem mem' : Nat → Nat → Pte}
    (hkeep : ∀ {r q p i : Nat}, IsTable mem root r q p → mem p i ≠ 0 → mem' p i = mem p i)
    {a x : Nat} (hx : translate mem root a = some x) : translate mem' root a = some x := by
  have hne : (look mem root (vpn a)).2 ≠ 0 := by
    intro hnull
    rw [translate_eq, leaf_null hnull] at hx
    cases hx
  have hname : ∀ {e : Pte} {c : Nat}, child e = some c → e ≠ 0 := by
    rintro e c hc rfl
    cases child_zero.symm.trans hc
  have hroot : IsTable mem root 3 (vpn a / 512 ^ (3 + 1)) root := div_top (vpn_lt a) ▸ .root
  have hlook : look mem' root (vpn a) = look mem root (vpn a) :=
    walk_agree (by decide) hname (fun hp => hkeep hp) hroot hne
  rw [translate_eq, hlook, ← translate_eq, hx]

section grown

variable {root : Nat} {written mapped written' mapped' : List Extent} {pt pt' pt'' : PtState}

theorem Grown.refl (hst : Tables root pt) (hflat : Flat root pt.mem) :
    Grown root [] [] pt pt where
  tables := hst
  flat := hflat
  grow := id
  keep _ _ := rfl
  new := .inl
  suffix := List.suffix_refl _
  refused := rfl
  frame _ _ _ := rfl
  same _ _ _ := .inl rfl

section

variable (h : Grown root written mapped pt pt')
include h

theorem Grown.trans (h' : Grown root written' mapped' pt' pt'') :
    Grown root (written ++ written') (mapped ++ mapped') pt pt'' where
  tables := h'.tables
  flat := h'.flat
  grow hp := h'.grow (h.grow hp)
  keep hp hne := by
    rw [← h.keep hp hne]
    exact h'.keep (h.grow hp) (by rwa [h.keep hp hne])
  new hp := by
    cases h'.new hp with
    | inl hp => exact h.new hp
    | inr hp => exact .inr (h.suffix.subset hp)
  suffix := h'.suffix.trans h.suffix
  refused := h'.refused.trans h.refused
  frame p hp ht := by
    rw [h'.frame p (fun e he => hp e (List.mem_append_right _ he)) ht]
    exact h.frame p (fun e he => hp e (List.mem_append_left _ he)) fun r q hq =>
      ht r q (h'.grow hq)
  same m hm hout :=
    (h.same m hm fun e he => hout e (List.mem_append_left _ he)).trans
      (h'.same m hm fun e he => hout e (List.mem_append_right _ he))

theorem Grown.widen
    (hsub : ∀ e ∈ written, ∃ e' ∈ written', e'.pos ≤ e.pos ∧ e.pos + e.len ≤ e'.pos + e'.len) :
    Grown root written' mapped pt pt' where
  tables := h.tables
  flat := h.flat
  grow := h.grow
  keep := h.keep
  new := h.new
  suffix := h.suffix
  refused := h.refused
  frame p hp ht := by
    apply h.frame p _ ht
    intro e he
    obtain ⟨e', he', hlo, hhi⟩ := hsub e he
    have := hp e' he'
    unfold Extent.Apart at *
    omega
  same := h.same

theorem Grown.clear {b : Extent} (hb : Clear root pt b) : Clear root pt' b where
  tables hp := by
    cases h.new hp with
    | inl hp => exact hb.tables hp
    | inr hp => exact hb.free _ hp
  free p hp := hb.free p (h.suffix.subset hp)

theorem Grown.translate {a x : Nat} (hx : translate pt.mem root a = some x) :
    translate pt'.mem root a = some x :=
  translate_of_keep h.keep hx

theorem Grown.byteAt {b : Extent} (hpos : b.pos % 4096 = 0) (hlen : b.len % 4096 = 0)
    (hb : Clear root pt b) (hapart : ∀ e ∈ written, b.Apart e) {x : Nat} (hx : b.Has x) :
    byteAt pt'.mem x = byteAt pt.mem x := by
  have hpage : pt'.mem (pageOf x) = pt.mem (pageOf x) := by
    apply h.frame
    · intro e he
      have := hapart e he
      unfold Extent.Has at hx
      unfold Extent.Apart page at *
      unfold pageOf
      dsimp only
      omega
    · intro r q hp
      have := (h.clear hb).tables hp
      unfold Extent.Has at hx
      unfold Extent.Apart page pageOf at this
      dsimp only at this
      omega
  unfold Lib.Bytes.byteAt
  rw [hpage]

theorem Grown.unmapped {n k : Nat} (hun : Unmapped root pt n k)
    (hapart : ∀ e ∈ mapped, (⟨n, k⟩ : Extent).Apart e) : Unmapped root pt' n k := by
  intro m hm hlo hhi
  apply (h.same m hm fun e he => (hapart e he).not_has ⟨hlo, hhi⟩).null_iff.1
  exact hun m hm hlo hhi

end

end grown

/-! ## Data -/

section data

variable {root : Nat} {pt : PtState}

/-- Data written beside the tables. -/
theorem grown_copy (hst : Tables root pt) (hflat : Flat root pt.mem) {dst n : Nat}
    (hclear : ∀ {r q p}, IsTable pt.mem root r q p → (page p).Apart ⟨dst, n⟩)
    (src : Nat → Byte) :
    Grown root [⟨dst, n⟩] [] pt { pt with mem := copy pt.mem dst src n } := by
  have hsame : SameTables root pt.mem (copy pt.mem dst src n) :=
    fun r q p hp => copy_page (hclear hp) src
  have hiff {r q p : Nat} : IsTable (copy pt.mem dst src n) root r q p ↔
      IsTable pt.mem root r q p := hsame.isTable_iff
  constructor
  case tables =>
    constructor
    case tree =>
      intro r q r' q' p h h'
      exact hst.tree (hiff.1 h) (hiff.1 h')
    case entry =>
      intro r q p i hp hi
      change EntryOk r (copy pt.mem dst src n p i)
      rw [hsame _ _ _ (hiff.1 hp)]
      exact hst.entry (hiff.1 hp) hi
    case root_lt => exact hst.root_lt
    case nodup => exact hst.nodup
    case page => exact hst.page
    case fresh => exact fun p hp r q h => hst.fresh p hp r q (hiff.1 h)
  case flat =>
    intro q p i hp hi
    change copy pt.mem dst src n p i = 0 ∨ Pte.isTable (copy pt.mem dst src n p i) = true
    rw [hsame _ _ _ (hiff.1 hp)]
    exact hflat (hiff.1 hp) hi
  case grow => exact hiff.2
  case keep => exact fun hp _ => congrFun (hsame _ _ _ hp) _
  case new => exact fun hp => .inl (hiff.1 hp)
  case suffix => exact List.suffix_refl _
  case refused => rfl
  case frame => exact fun p hp _ => copy_page (hp _ (List.mem_singleton_self _)) src
  case same =>
    intro m hm _
    exact .inl (hsame.look hm).symm

end data

/-! ## Mapping -/

section map

variable {flags : Flags} {root : Nat} {pt pt' : PtState} {va pa size k : Nat} {ret : Int}

/-- Without blocks a walk that ends at height 1 ends at a null entry. -/
theorem Flat.noBlock (hflat : Flat root pt.mem) (hst : Tables root pt) (n k : Nat) :
    NoBlock root pt n k := by
  intro m hm _ _ hone
  have hroot : IsTable pt.mem root 3 (m / 512 ^ (3 + 1)) root := div_top hm ▸ .root
  obtain ⟨r, p, hp, hend, hlook⟩ := exists_walk_end (by decide) hroot
  have hlook : look pt.mem root m = (r, pt.mem p (m / 512 ^ r % 512)) := hlook
  rw [hlook] at hone ⊢
  obtain rfl : r = 1 := hone
  have hi : m / 512 ^ 1 % 512 < 512 := Nat.mod_lt _ (by decide)
  apply Classical.byContradiction
  intro hne
  obtain ⟨hvalid, -⟩ := (hst.entry hp hi).resolve_left hne
  have htable := (hflat hp hi).resolve_left hne
  have hnone := hend.resolve_left (by decide)
  rw [child, hvalid, htable] at hnone
  cases hnone

theorem grown_of_mapped (hext : Ext flags root pt pt')
    (hmap : Mapped flags root pt pt' (vpn va) k pa) (href : pt'.refused = pt.refused)
    (hhuge : flags.has vmHuge2M = false) (hflat : Flat root pt.mem) :
    Grown root [] [⟨vpn va, k⟩] pt pt' where
  tables := hext.tables
  flat := hext.flat hhuge hflat
  grow := hext.grow
  keep := hext.keep
  new := hext.new
  suffix := hext.suffix
  refused := href
  frame p _ hp := hext.frame p hp
  same m hm hout := hmap.outside m hm (hout _ (List.mem_singleton_self _))

/-- What a call of `pagetable_map` that returned 0 did. -/
structure Range (root : Nat) (pt pt' : PtState) (va pa size : Nat) : Prop where
  va_page : va % 4096 = 0
  pa_page : pa % 4096 = 0
  size_page : size % 4096 = 0
  pos : 0 < size
  space : va % 281474976710656 + size ≤ 281474976710656
  grown : Grown root [] [⟨vpn va, size / 4096⟩] pt pt'
  leads : pa + size ≤ 281474976710656 → ∀ j < size,
    translate pt'.mem root (va + j) = some (pa + j)

theorem pagetableMap_range (hst : Tables root pt) (hflat : Flat root pt.mem)
    (hhuge : flags.has vmHuge2M = false) (hsize : size < 2 ^ 64)
    (h : pagetableMap pt root va pa size flags = .ok (ret, pt')) (hret : 0 ≤ ret) :
    ret = 0 ∧ Range root pt pt' va pa size := by
  have hacc : Accepted va pa size := by
    apply Classical.byContradiction
    intro hacc
    rw [pagetableMap, if_neg hacc] at h
    cases h
  obtain ⟨hva, hpa, k, hk, rfl⟩ := hacc.pages hsize
  have hout : Outcome flags root pt _ _ _ _ _ _ := mapPgdRange_outcome hst hva hpa hk
  rw [pagetableMap_eq hacc] at h
  generalize mapPgdRange flags pt (ptov root) va pa (4096 * k) = res at hout h
  cases hout with
  | fault => cases h
  | wild hblock => exact absurd (hflat.noBlock hst _ _) hblock
  | @done st' hfits hext hmap _ _ href =>
    cases h
    have hfit := ((pgdFits_iff hva.1).1 hfits).within
    have hgrown := grown_of_mapped hext hmap href hhuge hflat
    have hleads : pa + 4096 * k ≤ 281474976710656 → ∀ j < 4096 * k,
        translate st'.mem root (va + j) = some (pa + j) := by
      intro hphy j hj
      have hva0 := hva.1
      rw [translate_inside hva0 hmap hfit (by omega) (by omega)]
      congr 1
      have := hpa.1
      omega
    refine ⟨rfl, hva.1, hpa.1, by omega, by omega, hfit, ?_, hleads⟩
    rwa [Nat.mul_div_cancel_left k (by decide)]
  | @starved ret' st' j hret' =>
    obtain rfl : ret = -1 := by
      have := congrArg Prod.fst (Except.ok.inj h)
      rw [if_pos hret'] at this
      exact this.symm
    omega

theorem look_page_of_translate (hst : Tables root pt) (hflat : Flat root pt.mem) {x : Nat}
    (hx : translate pt.mem root va = some x) : (look pt.mem root (vpn va)).1 = 0 := by
  obtain ⟨-, -, -, -, ⟨-, -, -, -, hzero⟩ | ⟨-, -, -, hone⟩⟩ := translate_cases hx
  · exact hzero
  · have hnull := hflat.noBlock hst (vpn va) 1 (vpn va) (vpn_lt va) (Nat.le_refl _) (by omega)
      hone
    rw [translate_eq, leaf_null hnull] at hx
    cases hx

/-- The walk in software, in a space without blocks. -/
theorem pgtblWalk_of_translate (hst : Tables root pt) (hflat : Flat root pt.mem) {x : Nat}
    (hx : translate pt.mem root va = some x) (hlow : x < 68719476736) :
    pgtblWalk pt.mem root va = .ok x := by
  rw [(pgtblWalk_of_page hx (look_page_of_translate hst hflat hx)).1, Nat.mod_eq_of_lt hlow]

end map

/-! ## Tables to spare -/

/-- A request that takes at most `n` tables from `page_alloc`, and meets a refusal only
when there are not more than that. -/
def Uses (n : Nat) (st : PtState) (res : Except Fault (Int × PtState)) : Prop :=
  ∀ ret st', res = .ok (ret, st') → st.free.length ≤ st'.free.length + n ∧
    (st'.refused = true → st.refused = true ∨ st.free.length ≤ n)

section uses

variable {flags : Flags} {st : PtState} {n n' : Nat} {res : Except Fault (Int × PtState)}

theorem uses_ok {ret : Int} {st' : PtState} (hfree : st'.free = st.free)
    (href : st'.refused = st.refused) : Uses n st (.ok (ret, st')) := by
  intro _ _ h
  cases h
  rw [hfree, href]
  exact ⟨Nat.le_add_right _ _, .inl⟩

theorem Uses.mono (h : Uses n st res) (hle : n ≤ n') : Uses n' st res := by
  intro ret st' hres
  obtain ⟨hfree, href⟩ := h ret st' hres
  exact ⟨by omega, fun hr => (href hr).imp id fun _ => by omega⟩

theorem Uses.bind {rest : PtState → Except Fault (Int × PtState)} (h : Uses n st res)
    (hrest : ∀ st', Uses n' st' (rest st')) :
    Uses (n + n') st (res >>= fun x => if x.1 ≠ 0 then .ok (x.1, x.2) else rest x.2) := by
  intro ret st'' hres
  obtain ⟨⟨ret', st'⟩, hfirst, hres⟩ := ok_of_bind hres
  obtain ⟨hfree, href⟩ := h ret' st' hfirst
  change (if ret' ≠ 0 then Except.ok (ret', st') else rest st') = _ at hres
  by_cases hret : ret' ≠ 0
  · rw [if_pos hret] at hres
    cases hres
    exact ⟨by omega, fun hr => (href hr).imp id fun _ => by omega⟩
  · rw [if_neg hret] at hres
    obtain ⟨hfree', href'⟩ := hrest st' ret st'' hres
    refine ⟨by omega, fun hr => ?_⟩
    cases href' hr with
    | inl hr => exact (href hr).imp id fun _ => by omega
    | inr hle => exact .inr (by omega)

variable {i fuel base pmd pa size table mapSize va : Nat} {e : Pte} {errno : Int}

theorem uses_nextTable {inner : Nat → PtState → Except Fault (Int × PtState)}
    (hinner : ∀ next st', Uses n st' (inner next st')) :
    Uses (n + 1) st (match nextTable st table i e flags errno with
      | (.error ret, st) => .ok (ret, st)
      | (.ok next, st) => inner next st) := by
  unfold nextTable pageAlloc
  by_cases he : e = 0
  · rw [if_pos he]
    cases hfree : st.free with
    | nil =>
      intro ret st' h
      cases h
      rw [hfree]
      exact ⟨Nat.zero_le _, fun _ => .inr (Nat.zero_le _)⟩
    | cons c free =>
      intro ret st' h
      obtain ⟨hused, href⟩ := hinner _ _ ret st' h
      change free.length ≤ _ at hused
      rw [hfree, List.length_cons]
      refine ⟨by omega, fun hr => (href hr).imp id fun hle => ?_⟩
      change free.length ≤ n at hle
      omega
  · rw [if_neg he]
    exact (hinner _ st).mono (Nat.le_succ n)

theorem mapPtLoop_keeps {pt last phy : Nat} {st' : PtState}
    (h : mapPtLoop flags pt last fuel st i base phy = .ok st') :
    st'.free = st.free ∧ st'.refused = st.refused := by
  induction fuel generalizing st i base phy with
  | zero => cases h
  | succ fuel ih =>
    obtain ⟨e, -, h⟩ := ok_of_bind h
    split at h
    · cases h
    · dsimp only at h
      split at h
      · obtain ⟨hfree, href⟩ := ih h
        exact ⟨hfree, href⟩
      · cases h
        exact ⟨rfl, rfl⟩

theorem mapPmdEntry_uses : Uses 1 st (mapPmdEntry flags st pmd i e base pa size mapSize) := by
  unfold mapPmdEntry
  split
  · exact uses_ok rfl rfl
  · apply uses_nextTable (n := 0)
    intro next st' ret st'' h
    unfold mapPtRange at h
    split at h
    · cases h
    · cases hloop : mapPtLoop flags next (u64 (base + mapSize)) rounds st' (ptIndex base) base pa
        with
      | error f =>
        rw [hloop] at h
        cases h
      | ok st₁ =>
        rw [hloop] at h
        obtain ⟨hfree, href⟩ := mapPtLoop_keeps hloop
        have hkeeps : Uses 0 st' (.ok (0, st₁)) := uses_ok hfree href
        exact hkeeps _ _ h

/-- One table for the round at hand, and one for each 2 MiB begun after it. -/
theorem mapPmdLoop_uses :
    Uses ((size - mapSize + 2097151) / 2097152 + 1) st
      (mapPmdLoop flags pmd fuel st i base pa size mapSize) := by
  induction fuel generalizing st i base pa size mapSize with
  | zero => exact fun _ _ h => by cases h
  | succ fuel ih =>
    intro ret st' h
    obtain ⟨e, -, h⟩ := ok_of_bind h
    by_cases hleft : 0 < size - mapSize
    · have hrest : ∀ st', Uses ((size - mapSize + 2097151) / 2097152) st'
          (mapPmdLoop flags pmd fuel st' (i + 1) (u64 (base + mapSize)) (u64 (pa + mapSize))
            (size - mapSize)
            (if size - mapSize > pmdSize then pmdSize else size - mapSize)) := by
        intro st'
        apply ih.mono
        unfold pmdSize
        split <;> omega
      apply (mapPmdEntry_uses.bind hrest).mono (by omega) ret st'
      simpa only [if_pos hleft] using h
    · have hrest : ∀ st' : PtState, Uses 0 st' (.ok (0, st')) := fun _ => uses_ok rfl rfl
      apply (mapPmdEntry_uses.bind hrest).mono (Nat.le_add_left ..) ret st'
      simpa only [if_neg hleft] using h

theorem mapPmdRange_uses : Uses (size / 2097152 + 2) st (mapPmdRange flags st pmd base pa size) :=
  mapPmdLoop_uses.mono (by omega)

theorem mapTableLoop_uses {span : Nat} {huge : Pte → Nat → Nat → Nat → Bool}
    {inner : PtState → Nat → Nat → Nat → Nat → Except Fault (Int × PtState)} (hsize : size ≤ span)
    (hinner : ∀ next st', Uses n st' (inner st' next va pa size)) :
    Uses (n + 1) st (mapTableLoop flags span errno huge inner table fuel st i va pa size) := by
  cases fuel with
  | zero => exact fun _ _ h => by cases h
  | succ fuel =>
    intro ret st' h
    obtain ⟨e, -, h⟩ := ok_of_bind h
    split at h
    · cases h
    · have hround : ∀ next st', Uses n st' (inner st' next va pa size >>= fun x =>
          if x.1 ≠ 0 then .ok (x.1, x.2) else .ok (0, x.2)) :=
        fun next st' => (hinner next st').bind fun st'' => (uses_ok rfl rfl : Uses 0 st'' _)
      simp only [if_neg (Nat.not_lt.2 hsize), Nat.sub_self, Nat.lt_irrefl, if_false] at h
      exact uses_nextTable hround ret st' h

theorem pagetableMap_uses {root : Nat} (hsize : size ≤ pudSize) :
    Uses (size / 2097152 + 4) st (pagetableMap st root va pa size flags) := by
  intro ret st' h
  unfold pagetableMap at h
  split at h
  · obtain ⟨⟨ret', st''⟩, hrun, h⟩ := ok_of_bind h
    obtain rfl : st'' = st' := congrArg Prod.snd (Except.ok.inj h)
    have hpud : ∀ next st', Uses (size / 2097152 + 3) st'
        (mapPudRange flags st' next va pa size) :=
      fun next st' => mapTableLoop_uses hsize fun _ _ => mapPmdRange_uses
    have hpgd : size ≤ pgdSize := hsize.trans (by decide)
    exact mapTableLoop_uses hpgd hpud ret' st'' hrun
  · cases h

end uses

/-- Whole pages of memory at whole pages of the address space pass the assertions. -/
theorem accepted_of_pages {va pa size : Nat} (hpos : 0 < size) (hva : va % 4096 = 0)
    (hpa : pa % 4096 = 0) (hsize : size % 4096 = 0) (hend : va + size ≤ 281474976710656)
    (hphys : pa < 281474976710656) : Accepted va pa size := by
  have hsum : u64 (va + size) = va + size := by
    unfold u64
    omega
  have haligned : ∀ a < 2 ^ 64, a % 4096 = 0 → isAligned a pageSize = true := by
    intro a ha hmod
    rw [pageSize, isAligned_page ha, decide_eq_true hmod]
  refine ⟨hpos, ⟨?_, ?_⟩, hphys, haligned _ (by omega) hva, haligned _ (by omega) hsize,
    haligned _ (by omega) hpa⟩
  · unfold vaMax
    omega
  · rw [hsum]
    unfold vaMax
    omega

/-- **`pagetable_map` succeeds** on a range inside 1 GiB that is not mapped yet, with a
table to spare for each 2 MiB and four more. -/
theorem pagetableMap_returns {flags : Flags} {root : Nat} {pt : PtState} {va pa size : Nat}
    (hst : Tables root pt) (hflat : Flat root pt.mem) (hacc : Accepted va pa size)
    (hgiga : va % pudSize + size ≤ pudSize) (hflags : flags.has vmHuge1G = false)
    (hun : Unmapped root pt (vpn va) (size / 4096)) (href : pt.refused = false)
    (hfree : size / 2097152 + 4 < pt.free.length) :
    ∃ pt', pagetableMap pt root va pa size flags = .ok (0, pt') ∧
      pt.free.length ≤ pt'.free.length + (size / 2097152 + 4) := by
  have hsize : size ≤ pudSize := by omega
  have huses : Uses _ pt (pagetableMap pt root va pa size flags) := pagetableMap_uses hsize
  obtain ⟨hva, hpa, k, hk, rfl⟩ := hacc.pages (hsize.trans_lt (by decide))
  rw [Nat.mul_div_cancel_left k (by decide)] at hun
  have hout : Outcome flags root pt _ _ _ _ _ _ := mapPgdRange_outcome hst hva hpa hk
  rw [pagetableMap_eq hacc] at huses ⊢
  generalize mapPgdRange flags pt (ptov root) va pa (4096 * k) = res at hout huses ⊢
  cases hout with
  | fault hbad => exact absurd hun (hbad ((pgdFits_iff hva.1).2 (.inl hgiga)) hflags)
  | wild hblock => exact absurd (hflat.noBlock hst _ _) hblock
  | done => exact ⟨_, rfl, (huses _ _ rfl).1⟩
  | starved _ _ _ _ _ href' =>
    cases (huses _ _ rfl).2 href' with
    | inl h => exact absurd (href.symm.trans h) (by decide)
    | inr h => omega

end SpringOs.PageTable
