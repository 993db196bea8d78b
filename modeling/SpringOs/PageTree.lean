import SpringOs.PageTable

/-!
The tables of an address space as a tree, and what a write of `pagetable_map` does to it.

* **`Tables`**: the tables under a root are a tree of well-formed entries, and the pages
  `page_alloc` will hand out lie outside it;
* **`Ext`**: a later state has the same tables and perhaps new ones from `page_alloc`, and
  differs in no other page and in no entry that was there; with no `VM_HUGE` flag it has no
  new block;
* **`Mapped`**: the walks of one range of pages have come to lead to a physical range, and
  no other walk leads anywhere else; **`Installed`** says by which descriptors;
* **`Frame`**: the entries off the walks of the range are as they were;
* `store_ext`, `mapped_store`: filling a null entry with a page or a block;
* `nextTable_null`, `nextTable_table`: going down one level, with a new table or without;
* `SameTables`: what keeps the translation of every address.
-/

namespace SpringOs.PageTable
open Kernel Lib.Word Lib.Radix
open Function (update update_self update_of_ne)

/-- Page `p` is a table under `root`: at height 0 it holds pages, at height 3 it is the
root. -/
abbrev IsTable (mem : Nat → Nat → Pte) (root r q p : Nat) : Prop :=
  Reach child 512 mem root 3 r q p

/-- An entry is null or valid; only a table at height 1 may hold blocks. -/
def EntryOk (r : Nat) (e : Pte) : Prop :=
  e = 0 ∨ e.isValid = true ∧ (r = 1 ∨ e.isTable = true)

structure Tables (root : Nat) (st : PtState) : Prop where
  tree : IsTree child 512 st.mem root 3
  entry : ∀ {r q p i : Nat}, IsTable st.mem root r q p → i < 512 → EntryOk r (st.mem p i)
  root_lt : root < 2 ^ 48
  nodup : st.free.Nodup
  page : ∀ p ∈ st.free, p % 4096 = 0 ∧ p < 2 ^ 48
  fresh : ∀ p ∈ st.free, ∀ r q, ¬ IsTable st.mem root r q p

theorem child_zero : child 0 = none := by
  decide

variable {r root q p m : Nat} {e : Pte} {st : PtState}

theorem child_of_entryOk (h : EntryOk r e) (he : e ≠ 0) (hr : r ≠ 1) :
    child e = some (pteTableAddr e) := by
  obtain ⟨hv, ht⟩ := h.resolve_left he
  rw [child, hv, ht.resolve_left hr]
  rfl

theorem eq_pteTableAddr_of_child {c : Nat} (h : child e = some c) : c = pteTableAddr e := by
  unfold child at h
  split at h
  · exact (Option.some.inj h).symm
  · cases h

theorem isTable_of_child {c : Nat} (h : child e = some c) : e.isTable = true := by
  unfold child at h
  split at h
  · rename_i hbits
    exact (Bool.and_eq_true_iff.1 hbits).2
  · cases h

theorem Tables.table_lt (hst : Tables root st) (hp : IsTable st.mem root r q p) : p < 2 ^ 48 := by
  cases hp with
  | root => exact hst.root_lt
  | step _ _ hc =>
    rw [eq_pteTableAddr_of_child hc]
    exact (pteTableAddr_page _).2

/-! ## Walks -/

theorem div_top (hm : m < 68719476736) : m / 512 ^ (3 + 1) = 0 :=
  Nat.div_eq_of_lt hm

theorem look_of_table {mem : Nat → Nat → Pte} (hp : IsTable mem root r q p)
    (hm : m / 512 ^ (r + 1) = q) : look mem root m = walk child 512 mem m p r :=
  walk_of_reach hp hm

theorem look_of_entry {mem : Nat → Nat → Pte} {i : Nat} (hp : IsTable mem root r q p) (hi : i < 512)
    (hm : m / 512 ^ r = 512 * q + i) (hc : r = 0 ∨ child (mem p i) = none) :
    look mem root m = (r, mem p i) := by
  obtain ⟨hq, hd⟩ := (div_pow_eq_iff hi).1 hm
  rw [look_of_table hp hq, walk_of_none (hd ▸ hc), hd]

theorem leaf_null {x : Nat × Pte} (hx : x.2 = 0) : leaf m x = none := by
  obtain ⟨r, e⟩ := x
  cases hx
  match r with
  | 0 => rfl
  | 1 => rfl
  | _ + 2 => rfl

theorem leaf_of_entryOk (hok : EntryOk r e) (hne : e ≠ 0) (hend : r = 0 ∨ child e = none) :
    leaf m (r, e) ≠ none := by
  obtain ⟨hv, ht⟩ := hok.resolve_left hne
  match r with
  | 0 => simp [leaf, hv, ht.resolve_left (by decide)]
  | 1 => simp [leaf, hv]
  | r + 2 =>
    have hsome := child_of_entryOk hok hne (by omega)
    rw [hend.resolve_left (by omega)] at hsome
    cases hsome

/-- A walk ends at a well-formed entry that names no table. -/
theorem Tables.look_end (hst : Tables root st) (hm : m < 68719476736) :
    ∃ r e, look st.mem root m = (r, e) ∧ EntryOk r e ∧
      (r = 0 ∨ child e = none) := by
  have hroot : IsTable st.mem root 3 (m / 512 ^ (3 + 1)) root := div_top hm ▸ .root
  obtain ⟨r, p, hp, hend, hlook⟩ := exists_walk_end (by decide) hroot
  exact ⟨r, _, hlook, hst.entry hp (Nat.mod_lt (m / 512 ^ r) (by decide)), hend⟩

/-- A walk leads nowhere only when it ends at a null entry. -/
theorem Tables.leaf_eq_none_iff (hst : Tables root st) (hm : m < 68719476736) :
    leaf m (look st.mem root m) = none ↔ (look st.mem root m).2 = 0 := by
  obtain ⟨r, e, hlook, hok, hend⟩ := hst.look_end hm
  rw [hlook]
  constructor
  · intro hleaf
    apply Classical.byContradiction
    intro hne
    exact leaf_of_entryOk hok hne hend hleaf
  · exact leaf_null

/-! ## Later states -/

def Flat (root : Nat) (mem : Nat → Nat → Pte) : Prop :=
  ∀ {q p i : Nat}, IsTable mem root 1 q p → i < 512 → mem p i = 0 ∨ (mem p i).isTable = true

structure Ext (flags : Flags) (root : Nat) (st st' : PtState) : Prop where
  tables : Tables root st'
  grow : ∀ {r q p}, IsTable st.mem root r q p → IsTable st'.mem root r q p
  keep : ∀ {r q p i}, IsTable st.mem root r q p → st.mem p i ≠ 0 → st'.mem p i = st.mem p i
  frame : ∀ p, (∀ r q, ¬ IsTable st'.mem root r q p) → st'.mem p = st.mem p
  new : ∀ {r q p}, IsTable st'.mem root r q p → IsTable st.mem root r q p ∨ p ∈ st.free
  suffix : st'.free <:+ st.free
  flat : flags.has vmHuge2M = false → Flat root st.mem → Flat root st'.mem

section ext

variable {flags : Flags} {root : Nat} {st st' st'' : PtState}

theorem Ext.refl (hst : Tables root st) : Ext flags root st st where
  tables := hst
  grow := id
  keep _ _ := rfl
  frame _ _ := rfl
  new := .inl
  suffix := List.suffix_refl _
  flat _ h := h

theorem Ext.refuse (hst : Tables root st) : Ext flags root st { st with refused := true } where
  tables := ⟨hst.tree, hst.entry, hst.root_lt, hst.nodup, hst.page, hst.fresh⟩
  grow := id
  keep _ _ := rfl
  frame _ _ := rfl
  new := .inl
  suffix := List.suffix_refl _
  flat _ h := h

theorem Ext.trans (h : Ext flags root st st') (h' : Ext flags root st' st'') :
    Ext flags root st st'' where
  tables := h'.tables
  grow hp := h'.grow (h.grow hp)
  keep hp hne := by
    have heq := h.keep hp hne
    rw [← heq] at hne
    rw [h'.keep (h.grow hp) hne, heq]
  frame p hp := (h'.frame p hp).trans (h.frame p fun r q ht => hp r q (h'.grow ht))
  new hp := by
    cases h'.new hp with
    | inl hp => exact h.new hp
    | inr hp => exact .inr (h.suffix.subset hp)
  suffix := h'.suffix.trans h.suffix
  flat hno hflat := h'.flat hno (h.flat hno hflat)

end ext

/-- Two walk ends that stand for the same: equal, or both null. -/
def Same (x y : Nat × Pte) : Prop := x = y ∨ x.2 = 0 ∧ y.2 = 0

theorem Same.null_iff {x y : Nat × Pte} (h : Same x y) : x.2 = 0 ↔ y.2 = 0 := by
  obtain rfl | ⟨hx, hy⟩ := h
  · exact Iff.rfl
  · exact iff_of_true hx hy

theorem Same.leaf_eq {x y : Nat × Pte} (h : Same x y) (m : Nat) : leaf m y = leaf m x := by
  obtain rfl | ⟨hx, hy⟩ := h
  · rfl
  · rw [leaf_null hx, leaf_null hy]

theorem Same.trans {x y z : Nat × Pte} (h : Same x y) (h' : Same y z) : Same x z := by
  obtain rfl | ⟨hx, hy⟩ := h
  · exact h'
  · exact .inr ⟨hx, h'.null_iff.1 hy⟩

theorem vtop_congr {a c : Nat} (h : a % 18446744073709551616 = c % 18446744073709551616) :
    vtop a = vtop c := by
  unfold vtop u64 kernelAddrMask
  omega

/-- The end of the walk to page `m`, when `k` pages from page `n` on were mapped to `pa`: a page
descriptor, or that of a block which lies in the range and starts at a 2 MiB boundary on both
sides. -/
def Installed (flags : Flags) (n k pa m : Nat) (x : Nat × Pte) : Prop :=
  x = (0, pageEntry (pa + 4096 * (m - n)) flags) ∨
    ∃ s, s % 512 = 0 ∧ n ≤ s ∧ s + 512 ≤ n + k ∧ s ≤ m ∧ m < s + 512 ∧
      (pa + 4096 * (s - n)) % 2097152 = 0 ∧ x = (1, blockEntry (pa + 4096 * (s - n)) flags)

section installed

variable {flags : Flags} {n j l pa pa' m : Nat} {x : Nat × Pte}

theorem Installed.left (h : Installed flags n j pa m x) : Installed flags n (j + l) pa m x := by
  rcases h with hpage | ⟨s, hs, hlo, hhi, hrest⟩
  · exact .inl hpage
  · exact .inr ⟨s, hs, hlo, by omega, hrest⟩

theorem Installed.right (h : Installed flags (n + j) l pa' m x) (hm : n + j ≤ m)
    (hpa : pa' % 18446744073709551616 = (pa + 4096 * j) % 18446744073709551616) :
    Installed flags n (j + l) pa m x := by
  rcases h with hpage | ⟨s, hs, hlo, hhi, hle, hlt, hal, hblock⟩
  · left
    rw [hpage, pageEntry, pageEntry, vtop_congr (c := pa + 4096 * (m - n)) (by omega)]
  · right
    refine ⟨s, hs, by omega, by omega, hle, hlt, by omega, ?_⟩
    rw [hblock, blockEntry, blockEntry, vtop_congr (c := pa + 4096 * (s - n)) (by omega)]

end installed

/-- Between two states, `k` pages from page `n` on went from null to the physical pages
from `pa` on. A descriptor holds the low 48 bits of an address. -/
structure Mapped (flags : Flags) (root : Nat) (st st' : PtState) (n k pa : Nat) : Prop where
  null : ∀ m < 68719476736, n ≤ m → m < n + k → (look st.mem root m).2 = 0
  inside : ∀ m < 68719476736, n ≤ m → m < n + k →
    leaf m (look st'.mem root m) = some ((pa + 4096 * (m - n)) % 281474976710656)
  outside : ∀ m < 68719476736, ¬ (n ≤ m ∧ m < n + k) →
    Same (look st.mem root m) (look st'.mem root m)
  installed : ∀ m < 68719476736, n ≤ m → m < n + k →
    Installed flags n k pa m (look st'.mem root m)

section mapped

variable {flags : Flags} {root : Nat} {st st' st'' : PtState} {n j l pa pa' : Nat}

theorem Mapped.none (h : ∀ m < 68719476736, Same (look st.mem root m) (look st'.mem root m)) :
    Mapped flags root st st' n 0 pa where
  null m _ := by omega
  inside m _ := by omega
  outside m hm _ := h m hm
  installed m _ := by omega

theorem Mapped.look_eq (h : Mapped flags root st st' n j pa)
    (h' : Mapped flags root st' st'' (n + j) l pa') {m : Nat} (hm : m < 68719476736) (hlo : n ≤ m)
    (hhi : m < n + j) : look st''.mem root m = look st'.mem root m := by
  rcases h'.outside m hm (by omega) with heq | ⟨hnull, -⟩
  · exact heq.symm
  · have hleaf := h.inside m hm hlo hhi
    rw [leaf_null hnull] at hleaf
    cases hleaf

theorem Mapped.trans (h : Mapped flags root st st' n j pa)
    (h' : Mapped flags root st' st'' (n + j) l pa')
    (hpa : pa' % 18446744073709551616 = (pa + 4096 * j) % 18446744073709551616) :
    Mapped flags root st st'' n (j + l) pa where
  null m hm hlo hhi := by
    by_cases hj : m < n + j
    · exact h.null m hm hlo hj
    · exact (h.outside m hm (by omega)).null_iff.2 (h'.null m hm (by omega) (by omega))
  inside m hm hlo hhi := by
    by_cases hj : m < n + j
    · rw [h.look_eq h' hm hlo hj, h.inside m hm hlo hj]
    · rw [h'.inside m hm (by omega) (by omega)]
      congr 1
      omega
  outside m hm hout := (h.outside m hm (by omega)).trans (h'.outside m hm (by omega))
  installed m hm hlo hhi := by
    by_cases hj : m < n + j
    · rw [h.look_eq h' hm hlo hj]
      exact (h.installed m hm hlo hj).left
    · exact (h'.installed m hm (by omega) (by omega)).right (by omega) hpa

end mapped

/-- Entries that no page of the range passes have not changed, and in new tables they are
null. -/
structure Frame (root : Nat) (st st' : PtState) (n k : Nat) : Prop where
  off : ∀ {r q p i : Nat}, IsTable st'.mem root r q p → i < 512 →
    (∀ m, n ≤ m → m < n + k → m / 512 ^ r ≠ 512 * q + i) →
    IsTable st.mem root r q p ∧ st'.mem p i = st.mem p i ∨ p ∈ st.free ∧ st'.mem p i = 0

section frame

variable {root : Nat} {st st' st'' : PtState} {n k n' k' : Nat}

theorem Frame.refl : Frame root st st n k := ⟨fun hp _ _ => .inl ⟨hp, rfl⟩⟩

theorem Frame.trans (h : Frame root st st' n k) (h' : Frame root st' st'' n' k')
    (hfree : st'.free <:+ st.free) (hlo : n ≤ n') (hhi : n' + k' ≤ n + k) :
    Frame root st st'' n k := by
  constructor
  intro r q p i hp hi hoff
  rcases h'.off hp hi fun m hm hm' => hoff m (by omega) (by omega) with
    ⟨hp', heq⟩ | ⟨hnew, hzero⟩
  · rw [heq]
    exact h.off hp' hi hoff
  · exact .inr ⟨hfree.subset hnew, hzero⟩

theorem Frame.mono (h : Frame root st st' n k) (hk : k ≤ k') : Frame root st st' n k' :=
  ⟨fun hp hi hoff => h.off hp hi fun m hm hm' => hoff m hm (by omega)⟩

end frame

/-! ## Filling an entry -/

section store

variable {flags : Flags} {root : Nat} {st : PtState} {r q table i : Nat} {e : Pte}

theorem store_ext (hst : Tables root st) (hp : IsTable st.mem root r q (vtop table))
    (hnull : st.mem (vtop table) i = 0) (hok : EntryOk r e) (hnew : r = 0 ∨ child e = none)
    (hblock : r = 1 → flags.has vmHuge2M = true) : Ext flags root st (st.store table i e) := by
  have hold : r = 0 ∨ child (st.mem (vtop table) i) = none := .inr (hnull ▸ child_zero)
  have hiff : ∀ {r' q' x}, IsTable (st.store table i e).mem root r' q' x ↔
      IsTable st.mem root r' q' x := reach_set hst.tree hp hold hnew
  constructor
  case tables =>
    constructor
    case tree => exact isTree_set hst.tree hp hold hnew
    case entry =>
      intro r' q' x j hx hj
      change EntryOk r' (setEntry st.mem (vtop table) i e x j)
      by_cases heq : x = vtop table ∧ j = i
      · obtain ⟨rfl, rfl⟩ := heq
        obtain ⟨rfl, -⟩ := hst.tree (hiff.1 hx) hp
        rwa [setEntry_self]
      · rw [setEntry_of_ne heq]
        exact hst.entry (hiff.1 hx) hj
    case root_lt => exact hst.root_lt
    case nodup => exact hst.nodup
    case page => exact hst.page
    case fresh => exact fun x hx r' q' h => hst.fresh x hx r' q' (hiff.1 h)
  case grow => exact hiff.2
  case keep =>
    intro r' q' x j _ hne
    apply setEntry_of_ne
    rintro ⟨rfl, rfl⟩
    exact hne hnull
  case frame =>
    intro x hx
    apply update_of_ne
    rintro rfl
    exact hx r q (hiff.2 hp)
  case new => exact fun h => .inl (hiff.1 h)
  case suffix => exact List.suffix_refl _
  case flat =>
    intro hno hflat q' x j hx hj
    change setEntry st.mem (vtop table) i e x j = 0 ∨
      (setEntry st.mem (vtop table) i e x j).isTable = true
    rw [setEntry_of_ne]
    · exact hflat (hiff.1 hx) hj
    · rintro ⟨rfl, -⟩
      rw [hblock (hst.tree hp (hiff.1 hx)).1] at hno
      cases hno

/-- The entry itself is passed by the first page of the range. -/
theorem frame_store (hst : Tables root st) (hp : IsTable st.mem root r q (vtop table))
    (hnull : st.mem (vtop table) i = 0) (hnew : r = 0 ∨ child e = none) {n k : Nat} (hk : 0 < k)
    (hn : n / 512 ^ r = 512 * q + i) : Frame root st (st.store table i e) n k := by
  have hold : r = 0 ∨ child (st.mem (vtop table) i) = none := .inr (hnull ▸ child_zero)
  constructor
  intro r' q' x j hx _ hoff
  have hx' : IsTable st.mem root r' q' x := (reach_set hst.tree hp hold hnew).1 hx
  refine .inl ⟨hx', setEntry_of_ne ?_ e⟩
  rintro ⟨rfl, rfl⟩
  obtain ⟨rfl, rfl⟩ := hst.tree hx' hp
  exact hoff n (Nat.le_refl n) (by omega) hn

/-- A page or block stored over a null entry maps the pages the entry stands for. -/
theorem mapped_store (hst : Tables root st) (hp : IsTable st.mem root r q (vtop table))
    (hi : i < 512) (hnull : st.mem (vtop table) i = 0) (hnew : r = 0 ∨ child e = none)
    {n pa : Nat} (hn : n = 512 ^ r * (512 * q + i))
    (hleaf : ∀ m, n ≤ m → m < n + 512 ^ r →
      leaf m (r, e) = some ((pa + 4096 * (m - n)) % 281474976710656))
    (hinst : ∀ m, n ≤ m → m < n + 512 ^ r → Installed flags n (512 ^ r) pa m (r, e)) :
    Mapped flags root st (st.store table i e) n (512 ^ r) pa := by
  have hold : r = 0 ∨ child (st.mem (vtop table) i) = none := .inr (hnull ▸ child_zero)
  have hrange : ∀ m, m / 512 ^ r = 512 * q + i ↔ n ≤ m ∧ m < n + 512 ^ r := by
    intro m
    rw [Nat.div_eq_iff (Nat.pow_pos (by decide)), hn, Nat.mul_comm]
    have := Nat.pow_pos (n := r) (show 0 < 512 by decide)
    omega
  have hlook : ∀ m < 68719476736, look (st.store table i e).mem root m =
      if m / 512 ^ r = 512 * q + i then (r, e) else look st.mem root m :=
    fun m hm => walk_set (by decide) hst.tree hp hi hold hnew (div_top hm)
  constructor
  case null =>
    intro m hm hlo hhi
    rw [look_of_entry hp hi ((hrange m).2 ⟨hlo, hhi⟩) hold, hnull]
  case inside =>
    intro m hm hlo hhi
    rw [hlook m hm, if_pos ((hrange m).2 ⟨hlo, hhi⟩), hleaf m hlo hhi]
  case outside =>
    intro m hm hout
    rw [hlook m hm, if_neg fun h => hout ((hrange m).1 h)]
    exact .inl rfl
  case installed =>
    intro m hm hlo hhi
    rw [hlook m hm, if_pos ((hrange m).2 ⟨hlo, hhi⟩)]
    exact hinst m hlo hhi

end store

/-! ## Going down a level -/

section nextTable

variable {root : Nat} {st : PtState} {r q table i : Nat} {flags : Flags} {errno : Int}

theorem nextTable_refused (he : st.mem (vtop table) i = 0) (hfree : st.free = []) :
    nextTable st table i (st.mem (vtop table) i) flags errno =
      (.error errno, { st with refused := true }) := by
  simp [nextTable, pageAlloc, he, hfree]

theorem nextTable_table {c : Nat} (hc : child (st.mem (vtop table) i) = some c) :
    nextTable st table i (st.mem (vtop table) i) flags errno = (.ok (ptov c), st) := by
  have hne : st.mem (vtop table) i ≠ 0 := by
    intro h
    rw [h, child_zero] at hc
    cases hc
  rw [nextTable, if_neg hne, eq_pteTableAddr_of_child hc]

/-- The state after a null entry got a table of its own. -/
def withTable (st : PtState) (table i c : Nat) (free : List Nat) (flags : Flags) : PtState :=
  ({ st with free := free }.clear (ptov c)).store table i (tableEntry (ptov c) flags)

theorem nextTable_null {c : Nat} {free : List Nat} (he : st.mem (vtop table) i = 0)
    (hfree : st.free = c :: free) :
    nextTable st table i (st.mem (vtop table) i) flags errno =
      (.ok (ptov c), withTable st table i c free flags) := by
  simp [nextTable, pageAlloc, he, hfree, withTable]

variable {c : Nat} {free : List Nat}

theorem withTable_mem (hc : c < 2 ^ 48) : (withTable st table i c free flags).mem =
    setEntry (update st.mem c fun _ => 0) (vtop table) i (tableEntry (ptov c) flags) := by
  simp [withTable, PtState.store, PtState.clear, vtop_ptov hc]

theorem withTable_entry (hc : c < 2 ^ 48) {x j : Nat} :
    (withTable st table i c free flags).mem x j =
      if x = vtop table ∧ j = i then tableEntry (ptov c) flags
      else if x = c then 0 else st.mem x j := by
  rw [withTable_mem hc]
  split
  · rename_i heq
    rw [heq.1, heq.2, setEntry_self]
  · rename_i heq
    rw [setEntry_of_ne heq]
    split
    · rename_i hx
      rw [hx, update_self]
    · rename_i hx
      rw [update_of_ne hx]

section attach

variable (flags) (hst : Tables root st) (hp : IsTable st.mem root (r + 1) q (vtop table))
  (hi : i < 512) (hnull : st.mem (vtop table) i = 0) (hfree : st.free = c :: free)
include hst hp hi hnull hfree

/-- Clearing a page outside the tree, then hanging it in, adds its place and no other. -/
theorem withTable_attach :
    (∀ {r' q' x}, IsTable (withTable st table i c free flags).mem root r' q' x ↔
      IsTable st.mem root r' q' x ∨ r' = r ∧ q' = 512 * q + i ∧ x = c) ∧
    IsTree child 512 (withTable st table i c free flags).mem root 3 ∧
    ∀ m < 68719476736, look (withTable st table i c free flags).mem root m =
      if m / 512 ^ (r + 1) = 512 * q + i then (r, 0) else look st.mem root m := by
  have hmem : c ∈ st.free := hfree ▸ List.mem_cons_self
  obtain ⟨hpage, hlt⟩ := hst.page c hmem
  have hfresh := hst.fresh c hmem
  have hsame : ∀ {r' q' x}, IsTable st.mem root r' q' x →
      update st.mem c (fun _ => 0) x = st.mem x :=
    fun h => update_of_ne (fun heq => hfresh _ _ (heq ▸ h)) ..
  have hfill : ∀ {r' q' x}, IsTable (update st.mem c fun _ => 0) root r' q' x ↔
      IsTable st.mem root r' q' x := reach_congr hsame
  have htree : IsTree child 512 (update st.mem c fun _ => 0) root 3 :=
    fun _ _ _ _ _ h h' => hst.tree (hfill.1 h) (hfill.1 h')
  have hold : child (update st.mem c (fun _ => 0) (vtop table) i) = none := by
    rw [hsame hp, hnull, child_zero]
  have hfresh' : ∀ r' q', ¬ IsTable (update st.mem c fun _ => 0) root r' q' c :=
    fun r' q' h => hfresh r' q' (hfill.1 h)
  have hchild := (tableEntry_eq flags hlt hpage).2
  have hz : update st.mem c (fun _ => 0) c = fun _ => 0 := update_self ..
  rw [withTable_mem hlt]
  refine ⟨?_, ?_, ?_⟩
  · intro r' q' x
    exact (reach_attach htree (hfill.2 hp) hi hold hfresh' hchild hz child_zero).trans
      (or_congr_left hfill)
  · exact isTree_attach htree (hfill.2 hp) hi hold hfresh' hchild hz child_zero
  · intro m hm
    have hroot : IsTable st.mem root 3 (m / 512 ^ (3 + 1)) root := div_top hm ▸ .root
    refine (walk_attach (by decide) htree (hfill.2 hp) hi hold hfresh' hchild hz child_zero
      (div_top hm)).trans ?_
    rw [walk_congr hsame (by decide) hroot]
    rfl

theorem withTable_entry_cases {r' q' x : Nat}
    (hx : IsTable (withTable st table i c free flags).mem root r' q' x) (j : Nat) :
    (withTable st table i c free flags).mem x j = tableEntry (ptov c) flags ∨
      (withTable st table i c free flags).mem x j = 0 ∨
      IsTable st.mem root r' q' x ∧ (withTable st table i c free flags).mem x j = st.mem x j := by
  have hmem : c ∈ st.free := hfree ▸ List.mem_cons_self
  rw [withTable_entry (hst.page c hmem).2]
  split
  · exact .inl rfl
  · split
    · exact .inr (.inl rfl)
    · rename_i hne
      have hold := (withTable_attach flags hst hp hi hnull hfree).1.1 hx
      exact .inr (.inr ⟨hold.resolve_right fun h => hne h.2.2, rfl⟩)

theorem withTable_ext : Ext flags root st (withTable st table i c free flags) := by
  obtain ⟨hiff, htree, -⟩ := withTable_attach flags hst hp hi hnull hfree
  have hmem : c ∈ st.free := hfree ▸ List.mem_cons_self
  have hsub : free ⊆ st.free := hfree ▸ List.subset_cons_self c free
  have hnodup : (c :: free).Nodup := hfree ▸ hst.nodup
  obtain ⟨hv, hchild⟩ := tableEntry_eq flags (hst.page c hmem).2 (hst.page c hmem).1
  constructor
  case tables =>
    constructor
    case tree => exact htree
    case entry =>
      intro r' q' x j hx hj
      rcases withTable_entry_cases flags hst hp hi hnull hfree hx j with
        hnew | hzero | ⟨hold, hsame⟩
      · rw [hnew]
        exact .inr ⟨hv, .inr (isTable_of_child hchild)⟩
      · rw [hzero]
        exact .inl rfl
      · rw [hsame]
        exact hst.entry hold hj
    case root_lt => exact hst.root_lt
    case nodup => exact (List.nodup_cons.1 hnodup).2
    case page => exact fun x hx => hst.page x (hsub hx)
    case fresh =>
      intro x hx r' q' h
      obtain h | ⟨-, -, rfl⟩ := hiff.1 h
      · exact hst.fresh x (hsub hx) r' q' h
      · exact (List.nodup_cons.1 hnodup).1 hx
  case grow => exact fun h => hiff.2 (.inl h)
  case keep =>
    intro r' q' x j hx hne
    rw [withTable_entry (hst.page c hmem).2, if_neg, if_neg]
    · rintro rfl
      exact hst.fresh x hmem _ _ hx
    · rintro ⟨rfl, rfl⟩
      exact hne hnull
  case frame =>
    intro x hx
    funext j
    rw [withTable_entry (hst.page c hmem).2, if_neg, if_neg]
    · rintro rfl
      exact hx _ _ (hiff.2 (.inr ⟨rfl, rfl, rfl⟩))
    · rintro ⟨rfl, -⟩
      exact hx _ _ (hiff.2 (.inl hp))
  case new =>
    intro r' q' x hx
    obtain h | ⟨-, -, rfl⟩ := hiff.1 hx
    · exact .inl h
    · exact .inr hmem
  case suffix => exact hfree ▸ List.suffix_cons c free
  case flat =>
    intro _ hflat q' x j hx hj
    rcases withTable_entry_cases flags hst hp hi hnull hfree hx j with
      hnew | hzero | ⟨hold, hsame⟩
    · rw [hnew]
      exact .inr (isTable_of_child hchild)
    · rw [hzero]
      exact .inl rfl
    · rw [hsame]
      exact hflat hold hj

theorem withTable_mapped {n pa : Nat} :
    Mapped flags root st (withTable st table i c free flags) n 0 pa := by
  obtain ⟨-, -, hlook⟩ := withTable_attach flags hst hp hi hnull hfree
  apply Mapped.none
  intro m hm
  rw [hlook m hm]
  split
  · rename_i heq
    rw [look_of_entry hp hi heq (.inr (hnull ▸ child_zero)), hnull]
    exact .inr ⟨rfl, rfl⟩
  · exact .inl rfl

theorem withTable_frame {n k : Nat} (hk : 0 < k) (hn : n / 512 ^ (r + 1) = 512 * q + i) :
    Frame root st (withTable st table i c free flags) n k := by
  have hmem : c ∈ st.free := hfree ▸ List.mem_cons_self
  constructor
  intro r' q' x j hx _ hoff
  rw [withTable_entry (hst.page c hmem).2, if_neg]
  · rcases (withTable_attach flags hst hp hi hnull hfree).1.1 hx with hx' | ⟨-, -, rfl⟩
    · have hne : x ≠ c := fun heq => hst.fresh c hmem r' q' (heq ▸ hx')
      rw [if_neg hne]
      exact .inl ⟨hx', rfl⟩
    · exact .inr ⟨hmem, if_pos rfl⟩
  · rintro ⟨rfl, rfl⟩
    rcases (withTable_attach flags hst hp hi hnull hfree).1.1 hx with hx' | ⟨-, -, heq⟩
    · obtain ⟨rfl, rfl⟩ := hst.tree hx' hp
      exact hoff n (Nat.le_refl n) (by omega) hn
    · exact hst.fresh c hmem _ _ (heq ▸ hp)

end attach

end nextTable

/-! ## Memories with the same tables -/

def SameTables (root : Nat) (mem mem' : Nat → Nat → Pte) : Prop :=
  ∀ r q p, IsTable mem root r q p → mem' p = mem p

section same
variable {root : Nat} {mem mem' mem'' : Nat → Nat → Pte}

theorem SameTables.refl : SameTables root mem mem := fun _ _ _ _ => rfl

theorem SameTables.isTable_iff (h : SameTables root mem mem') {r q p : Nat} :
    IsTable mem' root r q p ↔ IsTable mem root r q p :=
  reach_congr (h _ _ _)

theorem SameTables.trans (h : SameTables root mem mem') (h' : SameTables root mem' mem'') :
    SameTables root mem mem'' := fun r q p hp =>
  (h' r q p (h.isTable_iff.2 hp)).trans (h r q p hp)

theorem SameTables.look (h : SameTables root mem mem') {n : Nat} (hn : n < 68719476736) :
    look mem' root n = look mem root n := by
  have hroot : IsTable mem root 3 (n / 512 ^ (3 + 1)) root := div_top hn ▸ .root
  exact walk_congr (h _ _ _) (by decide) hroot

theorem SameTables.translate (h : SameTables root mem mem') (va : Nat) :
    translate mem' root va = translate mem root va := by
  rw [translate_eq, translate_eq, h.look (vpn_lt va)]

end same

end SpringOs.PageTable
