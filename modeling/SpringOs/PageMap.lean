import SpringOs.PageTree

/-!
What `pagetable_map` and the four functions under it do to the tree of tables.

Every function of the family maps a range of pages and can end in four ways, which
**`Outcome`** lists: a fault, a walk into the data of a block, success, or a refusal of
`page_alloc` after a part of the range. `Outcome.bind` joins the rounds of a loop and
`outcome_nextTable` goes down a level; the rest is one induction per loop.

* **`mapPtRange_outcome`**, **`mapPmdRange_outcome`**, **`mapTableLoop_outcome`**: the
  functions of `pagetable.c`, and the ranges each of them can split;
* **`pagetableMap_outcome`**: the whole of `pagetable_map`.
-/

namespace SpringOs.PageTable
open Kernel Lib.Word Lib.Radix

/-! ## Page numbers -/

def PageAddr (a : Nat) : Prop := a % 4096 = 0 ∧ a < 18446744073709551616

theorem u64_add (a k : Nat) : u64 (a + k) = (a + k) % 18446744073709551616 :=
  u64_natCast (a + k)

theorem PageAddr.add {a : Nat} (ha : PageAddr a) (k : Nat) :
    PageAddr (u64 (a + (4096 * k : Nat))) := by
  unfold PageAddr at *
  rw [u64_add]
  omega

theorem u64_add_add (a j k : Nat) :
    u64 (u64 (a + (4096 * j : Nat)) + (4096 * k : Nat)) = u64 (a + (4096 * (j + k) : Nat)) := by
  rw [u64_add, u64_add, u64_add]
  omega

theorem u64_add_mod (a k : Nat) : u64 (a + (4096 * k : Nat)) % 18446744073709551616 =
    (a + 4096 * k) % 18446744073709551616 := by
  rw [u64_add]
  omega

theorem vpn_add {a : Nat} (ha : PageAddr a) {k : Nat} (hk : vpn a + k < 68719476736) :
    vpn (u64 (a + (4096 * k : Nat))) = vpn a + k := by
  unfold PageAddr at ha
  unfold vpn at *
  rw [u64_add]
  omega

theorem ptIndex_eq (va : Nat) : ptIndex va = vpn va % 512 := by
  unfold ptIndex vpn
  omega

theorem pmdIndex_eq (va : Nat) : pmdIndex va = vpn va / 512 % 512 := by
  unfold pmdIndex vpn
  omega

theorem pudIndex_eq (va : Nat) : pudIndex va = vpn va / 262144 % 512 := by
  unfold pudIndex vpn
  omega

theorem pgdIndex_eq (va : Nat) : pgdIndex va = vpn va / 134217728 := by
  unfold pgdIndex vpn
  omega

/-! ## How a request can end -/

def Unmapped (root : Nat) (st : PtState) (n k : Nat) : Prop :=
  ∀ m < 68719476736, n ≤ m → m < n + k → (look st.mem root m).2 = 0

def NoBlock (root : Nat) (st : PtState) (n k : Nat) : Prop :=
  ∀ m < 68719476736, n ≤ m → m < n + k → (look st.mem root m).1 = 1 → (look st.mem root m).2 = 0

/-- The tables missing on the walk of a page that ends at `x`, when the page is to be
mapped as part of a block or by itself. -/
def tablesNeeded (block : Bool) (x : Nat × Pte) : Nat :=
  if x.2 = 0 then if block then x.1 - 1 else x.1 else 0

/-- `page_alloc` is asked for `need` tables before the first page of the range is mapped.
`fits` says which ranges the function at hand can split. -/
inductive Outcome (flags : Flags) (root : Nat) (st : PtState) (n k pa : Nat) (fits : Prop)
    (need : Nat) : Except Fault (Int × PtState) → Prop
  | fault {f : Fault}
      (hbad : fits → flags.has vmHuge1G = false → ¬ Unmapped root st n k) :
      Outcome flags root st n k pa fits need (.error f)
  | wild {res : Except Fault (Int × PtState)} (hblock : ¬ NoBlock root st n k)
      (hneed : need ≤ st.free.length) : Outcome flags root st n k pa fits need res
  | done {st' : PtState} (hfits : fits) (hext : Ext flags root st st')
      (hmap : Mapped flags root st st' n k pa) (hframe : Frame root st st' n k)
      (hneed : need ≤ st.free.length) (href : st'.refused = st.refused) :
      Outcome flags root st n k pa fits need (.ok (0, st'))
  | starved {ret : Int} {st' : PtState} {j : Nat} (hret : ret ≠ 0) (hj : j < k)
      (hext : Ext flags root st st') (hmap : Mapped flags root st st' n j pa)
      (hneed : j = 0 ↔ st.free.length < need) (href : st'.refused = true) :
      Outcome flags root st n k pa fits need (.ok (ret, st'))

section outcome

variable {flags : Flags} {root : Nat} {st st' : PtState} {n j k l pa pa' need need' : Nat}
  {fits fits' : Prop} {res : Except Fault (Int × PtState)}

theorem Unmapped.left (h : Unmapped root st n k) (hj : j ≤ k) : Unmapped root st n j :=
  fun m hm hlo hhi => h m hm hlo (by omega)

theorem NoBlock.left (h : NoBlock root st n k) (hj : j ≤ k) : NoBlock root st n j :=
  fun m hm hlo hhi => h m hm hlo (by omega)

theorem Unmapped.right (h : Unmapped root st n (j + l)) (hmap : Mapped flags root st st' n j pa) :
    Unmapped root st' (n + j) l :=
  fun m hm hlo hhi =>
    (hmap.outside m hm (by omega)).null_iff.1 (h m hm (by omega) (by omega))

theorem NoBlock.right (h : NoBlock root st n (j + l)) (hmap : Mapped flags root st st' n j pa) :
    NoBlock root st' (n + j) l := by
  intro m hm hlo hhi hone
  obtain heq | ⟨-, hnull⟩ := hmap.outside m hm (by omega)
  · rw [← heq] at hone ⊢
    exact h m hm (by omega) (by omega) hone
  · exact hnull

theorem Outcome.nothing (hst : Tables root st) :
    Outcome flags root st n 0 pa True 0 (.ok (0, st)) :=
  .done trivial (.refl hst) (.none fun _ _ => .inl rfl) .refl (Nat.zero_le _) rfl

/-- An outcome from a later state, seen from the earlier one: `j` pages were mapped in
between, or none and only tables were added. -/
theorem Outcome.after (hext : Ext flags root st st') (hmap : Mapped flags root st st' n j pa)
    (hframe : Frame root st st' n (j + l)) (href : st'.refused = st.refused)
    (hfits : fits ↔ fits')
    (hpa : pa' % 18446744073709551616 = (pa + 4096 * j) % 18446744073709551616)
    (hneed : j = 0 ∧ (st'.free.length < need' ↔ st.free.length < need) ∨
      0 < j ∧ need ≤ st.free.length)
    (h : Outcome flags root st' (n + j) l pa' fits' need' res) :
    Outcome flags root st n (j + l) pa fits need res := by
  cases h with
  | fault hbad => exact .fault fun hf hflag hun => hbad (hfits.1 hf) hflag (hun.right hmap)
  | wild hblock hneed' => exact .wild (fun hno => hblock (hno.right hmap)) (by omega)
  | done hf hext' hmap' hframe' hneed' href' =>
    exact .done (hfits.2 hf) (hext.trans hext') (hmap.trans hmap' hpa)
      (hframe.trans hframe' hext.suffix (by omega) (by omega)) (by omega) (href'.trans href)
  | starved hret hj hext' hmap' hneed' href' =>
    exact .starved hret (Nat.add_lt_add_left hj j) (hext.trans hext') (hmap.trans hmap' hpa)
      (by omega) href'

/-- A round of `j` pages, then the rest of the loop. -/
theorem Outcome.bind {rest : PtState → Except Fault (Int × PtState)} {fits'' : Prop}
    (h : Outcome flags root st n j pa fits' need res) (hj : 0 < j) (hfits : fits → fits')
    (hfits' : fits' → (fits ↔ fits''))
    (hpa : pa' % 18446744073709551616 = (pa + 4096 * j) % 18446744073709551616)
    (hrest : ∀ st', fits' → Ext flags root st st' →
      ∃ need', Outcome flags root st' (n + j) l pa' fits'' need' (rest st')) :
    Outcome flags root st n (j + l) pa fits need (res >>= fun x =>
      if x.1 ≠ 0 then .ok (x.1, x.2) else rest x.2) := by
  cases h with
  | fault hbad =>
    exact .fault fun hf hflag hun => hbad (hfits hf) hflag (hun.left (Nat.le_add_right j l))
  | wild hblock hneed =>
    exact .wild (fun hno => hblock (hno.left (Nat.le_add_right j l))) hneed
  | @done st' hf hext hmap hframe hneed href =>
    obtain ⟨need', hafter⟩ := hrest st' hf hext
    exact .after hext hmap (hframe.mono (Nat.le_add_right j l)) href (hfits' hf) hpa
      (.inr ⟨hj, hneed⟩) hafter
  | @starved ret st' j' hret hj' hext hmap hneed href =>
    change Outcome flags root st n (j + l) pa fits need
      (if ret ≠ 0 then .ok (ret, st') else rest st')
    rw [if_pos hret]
    exact .starved hret (by omega) hext hmap hneed href

end outcome

/-! ## Going down a level -/

section down

variable {flags : Flags} {root : Nat} {st : PtState} {r q table i n k pa : Nat} {fits : Prop}
  {block : Bool} {errno : Int}

/-- With the entry of the range's first page null, tables are missing from this height
down; a new one leaves one less. -/
theorem tablesNeeded_null (block : Bool) (hp : IsTable st.mem root (r + 1) q (vtop table))
    (hi : i < 512) (hn : n / 512 ^ (r + 1) = 512 * q + i) (hnull : st.mem (vtop table) i = 0) :
    tablesNeeded block (look st.mem root n) = if block then r else r + 1 := by
  rw [look_of_entry hp hi hn (.inr (hnull ▸ child_zero)), hnull]
  rfl

theorem tablesNeeded_withTable (block : Bool) (hst : Tables root st)
    (hp : IsTable st.mem root (r + 1) q (vtop table)) (hi : i < 512)
    (hn : n / 512 ^ (r + 1) = 512 * q + i) (hlt : n < 68719476736)
    (hnull : st.mem (vtop table) i = 0) {c : Nat} {free : List Nat} (hfree : st.free = c :: free) :
    tablesNeeded block (look (withTable st table i c free flags).mem root n) =
      if block then r - 1 else r := by
  rw [(withTable_attach flags hst hp hi hnull hfree).2.2 n hlt, if_pos hn]
  rfl

theorem tablesNeeded_pt (block : Bool) {p : Nat} (hp : IsTable st.mem root 0 q p)
    (hn : n / 512 = q) : tablesNeeded block (look st.mem root n) = 0 := by
  rw [look_of_table hp hn, walk, tablesNeeded]
  cases block <;> simp

theorem starved_withTable_iff (flags : Flags) {c : Nat} {free : List Nat} (hst : Tables root st)
    (hp : IsTable st.mem root (r + 1) q (vtop table)) (hi : i < 512)
    (hn : n / 512 ^ (r + 1) = 512 * q + i) (hlt : n < 68719476736)
    (hnull : st.mem (vtop table) i = 0) (hfree : st.free = c :: free)
    (hpos : block = true → 0 < r) :
    (withTable st table i c free flags).free.length <
        tablesNeeded block (look (withTable st table i c free flags).mem root n) ↔
      st.free.length < tablesNeeded block (look st.mem root n) := by
  rw [tablesNeeded_withTable block hst hp hi hn hlt hnull hfree,
    tablesNeeded_null block hp hi hn hnull, hfree]
  change free.length < _ ↔ free.length + 1 < _
  cases block with
  | false => simp
  | true =>
    have := hpos rfl
    simp only [if_true]
    omega

theorem outcome_nextTable (hst : Tables root st)
    (hp : IsTable st.mem root (r + 1) q (vtop table)) (hi : i < 512)
    (hn : n / 512 ^ (r + 1) = 512 * q + i) (hlt : n < 68719476736) (hk : 0 < k)
    (hblock : r = 0 → st.mem (vtop table) i = 0 → block = false) (herr : errno ≠ 0)
    {inner : Nat → PtState → Except Fault (Int × PtState)}
    (hinner : ∀ st' next, Ext flags root st st' → IsTable st'.mem root r (512 * q + i) (vtop next) →
      Outcome flags root st' n k pa fits (tablesNeeded block (look st'.mem root n))
        (inner next st')) :
    Outcome flags root st n k pa fits (tablesNeeded block (look st.mem root n))
      (match nextTable st table i (st.mem (vtop table) i) flags errno with
        | (.error ret, st) => .ok (ret, st)
        | (.ok next, st) => inner next st) := by
  by_cases hnull : st.mem (vtop table) i = 0
  · have hneed := tablesNeeded_null block hp hi hn hnull
    have hpos : block = true → 0 < r := fun hb =>
      Nat.pos_of_ne_zero fun hr => Bool.noConfusion (hb.symm.trans (hblock hr hnull))
    cases hfree : st.free with
    | nil =>
      rw [nextTable_refused hnull hfree, hneed]
      apply Outcome.starved herr hk (.refuse hst) (.none fun _ _ => .inl rfl) _ rfl
      rw [hfree]
      cases block with
      | false => simp
      | true => simpa using hpos rfl
    | cons c free =>
      have hext := withTable_ext flags hst hp hi hnull hfree
      have htable : IsTable (withTable st table i c free flags).mem root r (512 * q + i)
          (vtop (ptov c)) := by
        rw [vtop_ptov (hst.page c (hfree ▸ List.mem_cons_self)).2]
        exact (withTable_attach flags hst hp hi hnull hfree).1.2 (.inr ⟨rfl, rfl, rfl⟩)
      have hone := starved_withTable_iff flags hst hp hi hn hlt hnull hfree hpos
      have hframe := withTable_frame flags hst hp hi hnull hfree hk hn
      rw [nextTable_null hnull hfree]
      rw [← Nat.zero_add k] at hframe ⊢
      exact .after hext (withTable_mapped flags hst hp hi hnull hfree) hframe rfl Iff.rfl rfl
        (.inl ⟨rfl, hone⟩) (hinner _ _ hext htable)
  · cases hc : child (st.mem (vtop table) i) with
    | some c =>
      have htable := Reach.step hp hi hc
      rw [nextTable_table hc]
      apply hinner st (ptov c) (.refl hst)
      rwa [vtop_ptov (hst.table_lt htable)]
    | none =>
      have hr : r = 0 := by
        apply Classical.byContradiction
        intro hr
        rw [child_of_entryOk (hst.entry hp hi) hnull (by omega)] at hc
        cases hc
      have hlook := look_of_entry hp hi hn (.inr hc)
      apply Outcome.wild
      · intro hno
        have := hno n hlt (Nat.le_refl n) (by omega)
        rw [hlook] at this
        exact hnull (this (congrArg (· + 1) hr))
      · rw [hlook, tablesNeeded, if_neg hnull]
        exact Nat.zero_le _

end down

/-! ## `map_pt_range` -/

theorem load_of_lt (st : PtState) (table : Nat) {i : Nat} (hi : i < 512) :
    st.load table i = .ok (st.mem (vtop table) i) :=
  if_pos hi

section pt

variable {flags : Flags} {root : Nat} {st : PtState} {q pt : Nat}

theorem mapped_page (flags : Flags) (hst : Tables root st)
    (hp : IsTable st.mem root 0 q (vtop pt)) {i phy : Nat} (hi : i < 512)
    (hnull : st.mem (vtop pt) i = 0) (hphy : PageAddr phy) :
    Ext flags root st (st.store pt i (pageEntry phy flags)) ∧
      Mapped flags root st (st.store pt i (pageEntry phy flags)) (512 * q + i) 1 phy ∧
      ∀ {k}, 0 < k → Frame root st (st.store pt i (pageEntry phy flags)) (512 * q + i) k := by
  obtain ⟨hv, ht, haddr⟩ := pageEntry_eq flags hphy.1
  refine ⟨?_, ?_, fun hk => frame_store hst hp hnull (.inl rfl) hk (Nat.div_one _)⟩
  · exact store_ext hst hp hnull (.inr ⟨hv, .inr ht⟩) (.inl rfl) (by omega)
  · apply mapped_store hst hp hi hnull (.inl rfl) (by omega)
    · intro m hlo hhi
      have hm : m = 512 * q + i := by omega
      simp [leaf, hv, ht, haddr, hm]
    · intro m hlo hhi
      have hm : m - (512 * q + i) = 0 := by omega
      left
      rw [hm]
      rfl

theorem mapPtLoop_outcome (flags : Flags) {fits : Prop} (hfits : fits) (fuel : Nat)
    {i base phy k last : Nat} (hst : Tables root st) (hp : IsTable st.mem root 0 q (vtop pt))
    (hfuel : k < fuel) (hi : i + (k + 1) ≤ 512) (hbase : PageAddr base)
    (hn : vpn base = 512 * q + i) (hphy : PageAddr phy)
    (hlast : last = u64 (base + (4096 * (k + 1) : Nat))) :
    Outcome flags root st (512 * q + i) (k + 1) phy fits 0
      ((mapPtLoop flags pt last fuel st i base phy).map fun st => (0, st)) := by
  induction fuel generalizing st i base phy k with
  | zero => omega
  | succ fuel ih =>
    rw [mapPtLoop, load_of_lt st pt (by omega)]
    change Outcome _ _ _ _ _ _ _ _ (Except.map _ (if _ then _ else _))
    by_cases hnull : st.mem (vtop pt) i = 0
    · rw [if_neg (not_not.2 hnull)]
      obtain ⟨hext, hmap, hframe⟩ := mapped_page flags hst hp (by omega) hnull hphy
      have hlt := vpn_lt base
      have hmore : u64 (base + pageSize) ≠ last ↔ k ≠ 0 := by
        obtain ⟨hal, hword⟩ := hbase
        rw [hlast, u64_add, u64_add, pageSize]
        omega
      rw [Nat.add_comm k 1]
      cases k with
      | zero =>
        rw [if_neg (fun h => hmore.1 h rfl)]
        exact .after hext hmap (hframe (by omega)) rfl (iff_of_true hfits trivial) rfl
          (.inr ⟨Nat.one_pos, Nat.zero_le _⟩) (.nothing hext.tables)
      | succ k =>
        rw [if_pos (hmore.2 (Nat.succ_ne_zero k))]
        refine .after hext hmap (hframe (by omega)) rfl Iff.rfl (u64_add_mod phy 1)
          (.inr ⟨Nat.one_pos, Nat.zero_le _⟩) (ih (k := k) (i := i + 1) hext.tables
            (hext.grow hp) (by omega) (by omega) (hbase.add 1) ?_ (hphy.add 1) ?_)
        · exact (vpn_add (k := 1) hbase (by omega)).trans (by omega)
        · rw [hlast, Nat.add_comm (k + 1) 1]
          exact (u64_add_add base 1 (k + 1)).symm
    · rw [if_pos hnull]
      apply Outcome.fault
      intro _ _ hun
      have hlook := look_of_entry (m := 512 * q + i) hp (by omega) (Nat.div_one _) (.inl rfl)
      have := hun (512 * q + i) (hn ▸ vpn_lt base) (Nat.le_refl _) (by omega)
      rw [hlook] at this
      exact hnull this

/-- `map_pt_range` maps what lies in one table, and stops at its first assertion
otherwise. -/
theorem mapPtRange_outcome {base phy k : Nat} (hst : Tables root st)
    (hp : IsTable st.mem root 0 (vpn base / 512) (vtop pt)) (hk : 0 < k) (hk' : k ≤ 512)
    (hbase : PageAddr base) (hphy : PageAddr phy) :
    Outcome flags root st (vpn base) k phy (vpn base % 512 + k ≤ 512) 0
      (mapPtRange flags st pt base (u64 (base + (4096 * k : Nat))) phy) := by
  have hassert : pmdIndex (u64 (u64 (base + (4096 * k : Nat)) - 1)) = pmdIndex base ↔
      vpn base % 512 + k ≤ 512 := by
    obtain ⟨hal, hword⟩ := hbase
    have hlast : u64 (u64 (base + (4096 * k : Nat)) - 1) =
        (base + 4096 * k - 1) % 18446744073709551616 := by
      rw [u64_add]
      unfold u64
      omega
    rw [hlast]
    unfold pmdIndex vpn
    omega
  unfold mapPtRange
  by_cases hfit : vpn base % 512 + k ≤ 512
  · rw [if_neg (not_not.2 (hassert.2 hfit)), ptIndex_eq]
    obtain ⟨k, rfl⟩ := Nat.exists_eq_add_of_lt hk
    rw [Nat.zero_add] at hfit hk' ⊢
    have hn : vpn base = 512 * (vpn base / 512) + vpn base % 512 := (Nat.div_add_mod _ _).symm
    have hloop := mapPtLoop_outcome flags hfit rounds hst hp (by unfold rounds; omega) hfit hbase hn
      hphy rfl
    rwa [← hn] at hloop
  · rw [if_pos fun h => hfit (hassert.1 h)]
    exact .fault fun h => absurd h hfit

end pt

/-! ## `map_pmd_range` -/

/-- Whether the first round of `map_pmd_range` may store a block. It gets at most 1 GiB,
that is 262144 pages. -/
def firstBlock (flags : Flags) (n pa k : Nat) : Bool :=
  flags.has vmHuge2M && n % 512 == 0 && pa % 2097152 == 0 && min k 262144 % 512 == 0

theorem firstBlock_iff {flags : Flags} {n pa k : Nat} (hk : k ≤ 262144) :
    firstBlock flags n pa k = true ↔
      flags.has vmHuge2M = true ∧ n % 512 = 0 ∧ pa % 2097152 = 0 ∧ k % 512 = 0 := by
  rw [firstBlock, Nat.min_eq_left hk]
  simp [and_assoc]

theorem canMapPmdHuge_iff {flags : Flags} {e : Pte} {va pa k : Nat} (hva : PageAddr va)
    (hpa : PageAddr pa) (hk : k ≤ 262144) :
    canMapPmdHuge flags e va pa (4096 * k) = true ↔
      e = 0 ∧ firstBlock flags (vpn va) pa k = true := by
  have halign : ∀ {a}, a < 2 ^ 64 → isAligned a pmdSize = decide (a % 2097152 = 0) :=
    isAligned_pow (k := 21) (by decide)
  have hn : vpn va % 512 = 0 ↔ va % 2097152 = 0 := by
    obtain ⟨hal, -⟩ := hva
    unfold vpn
    omega
  have hsize : k % 512 = 0 ↔ 4096 * k % 2097152 = 0 := by omega
  rw [firstBlock_iff hk, hn, hsize, canMapPmdHuge, halign hva.2, halign hpa.2, halign (by omega)]
  simp only [Bool.and_eq_true, decide_eq_true_eq, beq_iff_eq]
  constructor
  · rintro ⟨⟨⟨⟨hflag, he⟩, hva0⟩, hpa0⟩, hk0⟩
    exact ⟨he, hflag, hva0, hpa0, hk0⟩
  · rintro ⟨he, hflag, hva0, hpa0, hk0⟩
    exact ⟨⟨⟨⟨hflag, he⟩, hva0⟩, hpa0⟩, hk0⟩

section pmd

variable {flags : Flags} {root : Nat} {st : PtState} {q pmd i base pa k j : Nat}

theorem mapped_block (hflags : flags.has vmHuge2M = true) (hst : Tables root st)
    (hp : IsTable st.mem root 1 q (vtop pmd)) (hi : i < 512)
    (hnull : st.mem (vtop pmd) i = 0) (hpa : pa % 2097152 = 0) {n : Nat}
    (hn : n = 512 * (512 * q + i)) :
    Ext flags root st (st.store pmd i (blockEntry pa flags)) ∧
      Mapped flags root st (st.store pmd i (blockEntry pa flags)) n 512 pa ∧
      Frame root st (st.store pmd i (blockEntry pa flags)) n 512 := by
  obtain ⟨hv, ht, haddr⟩ := blockEntry_eq flags hpa
  have hchild : child (blockEntry pa flags) = none := by simp [child, ht]
  refine ⟨?_, ?_, frame_store hst hp hnull (.inr hchild) (by decide) (by omega)⟩
  · exact store_ext hst hp hnull (.inr ⟨hv, .inl rfl⟩) (.inr hchild) fun _ => hflags
  · apply mapped_store hst hp hi hnull (.inr hchild) (by omega)
    · intro m hlo hhi
      simp only [leaf, hv, haddr, if_true]
      congr 1
      omega
    · intro m hlo hhi
      refine .inr ⟨n, by omega, Nat.le_refl n, Nat.le_refl _, hlo, hhi, ?_, ?_⟩
      · rw [Nat.sub_self]
        exact hpa
      · rw [Nat.sub_self]
        rfl

theorem mapPmdEntry_outcome (hst : Tables root st) (hp : IsTable st.mem root 1 q (vtop pmd))
    (hi : i < 512) (hn : vpn base / 512 = 512 * q + i) (hbase : PageAddr base)
    (hpa : PageAddr pa) (hj : 0 < j) (hj' : j ≤ 512) (hk : k ≤ 262144)
    (hblock : vpn base % 512 = 0 → k % 512 = 0 → j = 512) :
    Outcome flags root st (vpn base) j pa (vpn base % 512 + j ≤ 512)
      (tablesNeeded (firstBlock flags (vpn base) pa k) (look st.mem root (vpn base)))
      (mapPmdEntry flags st pmd i (st.mem (vtop pmd) i) base pa (4096 * k) (4096 * j)) := by
  unfold mapPmdEntry
  by_cases hhuge : canMapPmdHuge flags (st.mem (vtop pmd) i) base pa (4096 * k) = true
  · obtain ⟨hnull, hfirst⟩ := (canMapPmdHuge_iff hbase hpa hk).1 hhuge
    obtain ⟨hflags, hbase0, hpa0, hk0⟩ := (firstBlock_iff hk).1 hfirst
    obtain rfl := hblock hbase0 hk0
    obtain ⟨hext, hmap, hframe⟩ :=
      mapped_block hflags hst hp hi hnull hpa0 (n := vpn base) (by omega)
    rw [if_pos hhuge, hfirst, tablesNeeded_null true hp hi hn hnull]
    exact .done (by omega) hext hmap hframe (Nat.zero_le _) rfl
  · rw [if_neg hhuge]
    apply outcome_nextTable hst hp hi hn (vpn_lt base) hj _ (by decide)
    · intro st' pt hext hpt
      rw [tablesNeeded_pt _ hpt hn]
      exact mapPtRange_outcome hext.tables (hn ▸ hpt) hj hj' hbase hpa
    · intro _ hnull
      exact Bool.eq_false_iff.2 fun h => hhuge ((canMapPmdHuge_iff hbase hpa hk).2 ⟨hnull, h⟩)

/-- The loop from entry `i` on, with a first round of `j` pages and `l` pages after it. A
round ends where its table does; only at the top of the address space, where `align_up`
wraps to 0, may the first one be too long. -/
theorem mapPmdLoop_outcome (flags : Flags) (fuel : Nat) {n l : Nat} (hst : Tables root st)
    (hp : IsTable st.mem root 1 q (vtop pmd)) (hi : i ≤ 512) (hfuel : 513 ≤ i + fuel)
    (hn : i < 512 → vpn base = n ∧ n / 512 = 512 * q + i) (hbase : PageAddr base)
    (hpa : PageAddr pa) (hj : 0 < j) (hk : j + l ≤ 262144)
    (hsplit : j = min (j + l) (512 - n % 512) ∨ i = 511 ∧ 512 < n % 512 + j ∧ j ≤ 512) :
    Outcome flags root st n (j + l) pa (512 * i + n % 512 + (j + l) ≤ 262144)
      (tablesNeeded (firstBlock flags n pa (j + l)) (look st.mem root n))
      (mapPmdLoop flags pmd fuel st i base pa (4096 * (j + l)) (4096 * j)) := by
  induction fuel generalizing st i n base pa j l with
  | zero => omega
  | succ fuel ih =>
    by_cases hlt : i < 512
    · obtain ⟨rfl, hn⟩ := hn hlt
      rw [mapPmdLoop, load_of_lt st pmd hlt]
      have hround : Outcome flags root st (vpn base) j pa (vpn base % 512 + j ≤ 512) _ _ :=
        mapPmdEntry_outcome hst hp hlt hn hbase hpa hj (by omega) hk (by omega)
      have hleft : 4096 * (j + l) - 4096 * j = 4096 * l := by omega
      rw [hleft]
      cases Nat.eq_zero_or_pos l with
      | inl hl =>
        subst hl
        exact hround.bind hj (by omega) (fun _ => iff_of_true (by omega) trivial)
          (u64_add_mod pa j) fun st' _ hext => ⟨_, .nothing hext.tables⟩
      | inr hl =>
        have hnext : (if 4096 * l > pmdSize then pmdSize else 4096 * l) = 4096 * min l 512 := by
          unfold pmdSize
          split <;> omega
        have hrest : ∀ st', vpn base % 512 + j ≤ 512 → Ext flags root st st' → ∃ need',
            Outcome flags root st' (vpn base + j) l (u64 (pa + (4096 * j : Nat)))
              (512 * (i + 1) + (vpn base + j) % 512 + l ≤ 262144) need'
              (if 0 < 4096 * l then
                mapPmdLoop flags pmd fuel st' (i + 1) (u64 (base + (4096 * j : Nat)))
                  (u64 (pa + (4096 * j : Nat))) (4096 * l)
                  (if 4096 * l > pmdSize then pmdSize else 4096 * l)
              else .ok (0, st')) := by
          intro st' hfit hext
          -- the next round starts at the next table
          have hcut : min l 512 + (l - min l 512) = l := by omega
          have hlt' := vpn_lt base
          have hplace : i + 1 < 512 → vpn (u64 (base + (4096 * j : Nat))) = vpn base + j ∧
              (vpn base + j) / 512 = 512 * q + (i + 1) := by
            intro hi'
            exact ⟨vpn_add hbase (by omega), by omega⟩
          have hloop := ih (n := vpn base + j) (j := min l 512) (l := l - min l 512) hext.tables
            (hext.grow hp) (show i + 1 ≤ 512 from hlt) (by omega) hplace (hbase.add j) (hpa.add j)
            (by omega) (by omega) (by omega)
          rw [if_pos (by omega), hnext]
          rw [hcut] at hloop
          exact ⟨_, hloop⟩
        exact hround.bind hj (by omega) (fun _ => by omega) (u64_add_mod pa j) hrest
    · rw [mapPmdLoop, PtState.load, if_neg hlt]
      exact .fault fun hfits => by omega

theorem firstRound (hbase : PageAddr base) (hk : 0 < k) : ∃ j l, k = j + l ∧ 0 < j ∧
    (if alignUp base pmdSize > base ∧ alignUp base pmdSize - base < 4096 * k then
      alignUp base pmdSize - base
    else if 4096 * k > pmdSize then pmdSize else 4096 * k) = 4096 * j ∧
    (j = min (j + l) (512 - vpn base % 512) ∨
      pmdIndex base = 511 ∧ 512 < vpn base % 512 + j ∧ j ≤ 512) := by
  obtain ⟨hal, hword⟩ := hbase
  have hup : alignUp base pmdSize = (base + 2097151) % 2 ^ 64 / 2097152 * 2097152 :=
    alignUp_mod base 21
  have hindex : pmdIndex base = base / 2097152 % 512 := rfl
  have hn : vpn base % 512 = base / 4096 % 512 := by unfold vpn; omega
  rw [hn, hindex, hup, pmdSize]
  by_cases hcross : (base + 2097151) % 2 ^ 64 / 2097152 * 2097152 > base ∧
      (base + 2097151) % 2 ^ 64 / 2097152 * 2097152 - base < 4096 * k
  · refine ⟨512 - base / 4096 % 512, k - (512 - base / 4096 % 512), ?_, ?_, ?_, .inl ?_⟩
    · omega
    · omega
    · rw [if_pos hcross]
      omega
    · omega
  · refine ⟨min k 512, k - min k 512, ?_, ?_, ?_, ?_⟩
    · omega
    · omega
    · rw [if_neg hcross]
      split <;> omega
    · omega

/-- `map_pmd_range` splits every range inside its table. -/
def pmdFits (n k : Nat) : Prop := n % 262144 + k ≤ 262144

theorem mapPmdRange_outcome (hst : Tables root st)
    (hp : IsTable st.mem root 1 (vpn base / 262144) (vtop pmd)) (hbase : PageAddr base)
    (hpa : PageAddr pa) (hk : 0 < k) (hk' : k ≤ 262144) :
    Outcome flags root st (vpn base) k pa (pmdFits (vpn base) k)
      (tablesNeeded (firstBlock flags (vpn base) pa k) (look st.mem root (vpn base)))
      (mapPmdRange flags st pmd base pa (4096 * k)) := by
  obtain ⟨j, l, rfl, hj, hsize, hsplit⟩ := firstRound hbase hk
  have hfits : pmdFits (vpn base) (j + l) ↔
      512 * pmdIndex base + vpn base % 512 + (j + l) ≤ 262144 := by
    rw [pmdIndex_eq, pmdFits]
    omega
  have hcall : mapPmdRange flags st pmd base pa (4096 * (j + l)) =
      mapPmdLoop flags pmd rounds st (pmdIndex base) base pa (4096 * (j + l)) (4096 * j) :=
    congrArg (mapPmdLoop flags pmd rounds st (pmdIndex base) base pa (4096 * (j + l))) hsize
  rw [hcall, hfits]
  have hi : pmdIndex base < 512 := Nat.mod_lt _ (by decide)
  apply mapPmdLoop_outcome flags rounds hst hp hi.le (Nat.le_add_left ..) _ hbase hpa hj hk' hsplit
  intro _
  rw [pmdIndex_eq]
  omega

end pmd

/-! ## `map_pud_range` and `map_pgd_range` -/

/-- A function that maps up to `512 ^ (r + 1)` pages under a table of height `r`, and the
ranges it can split. -/
def Serves (flags : Flags) (root r : Nat) (fits : Nat → Nat → Prop)
    (inner : PtState → Nat → Nat → Nat → Nat → Except Fault (Int × PtState)) : Prop :=
  ∀ {st : PtState} {table va pa k : Nat}, Tables root st →
    IsTable st.mem root r (vpn va / 512 ^ (r + 1)) (vtop table) → PageAddr va → PageAddr pa →
    0 < k → k ≤ 512 ^ (r + 1) →
    Outcome flags root st (vpn va) k pa (fits (vpn va) k)
      (tablesNeeded (firstBlock flags (vpn va) pa k) (look st.mem root (vpn va)))
      (inner st table va pa (4096 * k))

/-- A whole table's worth of pages must start at a table's first page; from there any
range up to it will do. -/
structure Whole (r : Nat) (fits : Nat → Nat → Prop) : Prop where
  start : ∀ {n}, fits n (512 ^ (r + 1)) → n % 512 ^ (r + 1) = 0
  part : ∀ {n k}, n % 512 ^ (r + 1) = 0 → k ≤ 512 ^ (r + 1) → fits n k

/-- The ranges that the loop can split from entry `i` on: its rounds are a whole table
long wherever they start. -/
def loopFits (r : Nat) (fits : Nat → Nat → Prop) (i n k : Nat) : Prop :=
  if k ≤ 512 ^ (r + 1) then i < 512 ∧ fits n k
  else n % 512 ^ (r + 1) = 0 ∧ 512 ^ (r + 1) * i + k ≤ 512 ^ (r + 2)

section table

variable {flags : Flags} {root r : Nat} {fits : Nat → Nat → Prop} {i n k : Nat}

theorem loopFits_round (hwhole : Whole r fits) (h : loopFits r fits i n k) :
    fits n (min k (512 ^ (r + 1))) := by
  unfold loopFits at h
  split at h
  · rename_i hk
    rw [Nat.min_eq_left hk]
    exact h.2
  · rename_i hk
    rw [Nat.min_eq_right (by omega)]
    exact hwhole.part h.1 (Nat.le_refl _)

theorem loopFits_last (hi : i < 512) (hk : k ≤ 512 ^ (r + 1)) (h : fits n (min k (512 ^ (r + 1)))) :
    loopFits r fits i n k := by
  rw [Nat.min_eq_left hk] at h
  rw [loopFits, if_pos hk]
  exact ⟨hi, h⟩

theorem not_loopFits_end (hk : 0 < k) : ¬ loopFits r fits 512 n k := by
  intro h
  have hpow : 512 ^ (r + 2) = 512 ^ (r + 1) * 512 := Nat.pow_succ ..
  unfold loopFits at h
  split at h
  · omega
  · rw [hpow] at h
    omega

theorem loopFits_next (hr : r = 1 ∨ r = 2) (hwhole : Whole r fits)
    (hk : 512 ^ (r + 1) < k) (hround : fits n (512 ^ (r + 1))) :
    loopFits r fits i n k ↔
      loopFits r fits (i + 1) (n + 512 ^ (r + 1)) (k - 512 ^ (r + 1)) := by
  have hstart := hwhole.start hround
  have hstart' : (n + 512 ^ (r + 1)) % 512 ^ (r + 1) = 0 := by rw [Nat.add_mod_right, hstart]
  unfold loopFits
  rw [if_neg (by omega)]
  split
  · rename_i hle
    rw [and_iff_right hstart, and_iff_left (hwhole.part hstart' hle)]
    obtain rfl | rfl := hr <;> omega
  · rw [and_iff_right hstart, and_iff_right hstart']
    obtain rfl | rfl := hr <;> omega

theorem next_place (hr : r = 1 ∨ r = 2) {q va : Nat} (hva : PageAddr va)
    (hn : vpn va / 512 ^ (r + 1) = 512 * q + i) (hstart : vpn va % 512 ^ (r + 1) = 0)
    (hi : i + 1 < 512) :
    vpn (u64 (va + (4096 * 512 ^ (r + 1) : Nat))) = vpn va + 512 ^ (r + 1) ∧
      (vpn va + 512 ^ (r + 1)) / 512 ^ (r + 1) = 512 * q + (i + 1) := by
  have hlt := vpn_lt va
  constructor
  · apply vpn_add hva
    obtain rfl | rfl := hr <;> omega
  · rw [Nat.add_div_right _ (Nat.pow_pos (by decide)), hn]
    rfl

theorem firstBlock_min (hr : r = 1 ∨ r = 2) (flags : Flags) (n pa k : Nat) :
    firstBlock flags n pa (min k (512 ^ (r + 1))) = firstBlock flags n pa k := by
  have hmin : min (min k (512 ^ (r + 1))) 262144 = min k 262144 := by
    obtain rfl | rfl := hr <;> omega
  unfold firstBlock
  rw [hmin]

variable {inner : PtState → Nat → Nat → Nat → Nat → Except Fault (Int × PtState)}
  {huge : Pte → Nat → Nat → Nat → Bool} {errno : Int} {table q : Nat}

theorem mapTableLoop_succ {st : PtState} {va pa fuel : Nat} (hi : i < 512)
    (hbig : ¬ huge (st.mem (vtop table) i) va pa (4096 * k) = true) :
    mapTableLoop flags (4096 * 512 ^ (r + 1)) errno huge inner table (fuel + 1) st i va pa
        (4096 * k) =
      match nextTable st table i (st.mem (vtop table) i) flags errno with
      | (.error ret, st) => .ok (ret, st)
      | (.ok next, st) =>
        inner st next va pa (4096 * min k (512 ^ (r + 1))) >>= fun x =>
          if x.1 ≠ 0 then .ok (x.1, x.2)
          else if 512 ^ (r + 1) < k then
            mapTableLoop flags (4096 * 512 ^ (r + 1)) errno huge inner table fuel x.2 (i + 1)
              (u64 (va + (4096 * 512 ^ (r + 1) : Nat))) (u64 (pa + (4096 * 512 ^ (r + 1) : Nat)))
              (4096 * (k - 512 ^ (r + 1)))
          else .ok (0, x.2) := by
  rw [mapTableLoop, load_of_lt st table hi]
  change (if _ then _ else _) = _
  rw [if_neg hbig]
  cases nextTable st table i (st.mem (vtop table) i) flags errno with
  | mk next st' =>
    cases next with
    | error ret => rfl
    | ok next =>
      by_cases hmore : 512 ^ (r + 1) < k
      · have hleft : 4096 * k - 4096 * 512 ^ (r + 1) = 4096 * (k - 512 ^ (r + 1)) := by omega
        simp only [if_pos hmore, Nat.min_eq_right hmore.le, hleft,
          if_pos (show 4096 * k > 4096 * 512 ^ (r + 1) by omega),
          if_pos (show 0 < 4096 * (k - 512 ^ (r + 1)) by omega)]
      · simp only [if_neg hmore, Nat.min_eq_left (Nat.le_of_not_lt hmore), Nat.sub_self,
          if_neg (show ¬ 4096 * k > 4096 * 512 ^ (r + 1) by omega), if_neg (Nat.lt_irrefl 0)]

theorem mapTableLoop_outcome (hr : r = 1 ∨ r = 2) (hinner : Serves flags root r fits inner)
    (hwhole : Whole r fits) (herr : errno ≠ 0)
    (hhuge : ∀ e va pa size, huge e va pa size = true → flags.has vmHuge1G = true) (fuel : Nat)
    {st : PtState} {va pa : Nat} (hst : Tables root st)
    (hp : IsTable st.mem root (r + 1) q (vtop table)) (hi : i ≤ 512) (hfuel : 513 ≤ i + fuel)
    (hn : i < 512 → vpn va = n ∧ n / 512 ^ (r + 1) = 512 * q + i) (hva : PageAddr va)
    (hpa : PageAddr pa) (hk : 0 < k) :
    Outcome flags root st n k pa (loopFits r fits i n k)
      (tablesNeeded (firstBlock flags n pa k) (look st.mem root n))
      (mapTableLoop flags (4096 * 512 ^ (r + 1)) errno huge inner table fuel st i va pa
        (4096 * k)) := by
  induction fuel generalizing st i n va pa k with
  | zero => omega
  | succ fuel ih =>
    by_cases hlt : i < 512
    · obtain ⟨rfl, hn⟩ := hn hlt
      by_cases hbig : huge (st.mem (vtop table) i) va pa (4096 * k) = true
      · rw [mapTableLoop, load_of_lt st table hlt]
        change Outcome _ _ _ _ _ _ _ _ (if _ then _ else _)
        rw [if_pos hbig]
        exact .fault fun _ hflag => absurd (hhuge _ _ _ _ hbig) (by rw [hflag]; decide)
      · rw [mapTableLoop_succ hlt hbig]
        apply outcome_nextTable hst hp hlt hn (vpn_lt va) hk (by omega) herr
        intro st' next hext' hnext
        have hround := hinner (k := min k (512 ^ (r + 1))) hext'.tables (hn ▸ hnext) hva hpa
          (Nat.lt_min.2 ⟨hk, Nat.pow_pos (by decide)⟩) (Nat.min_le_right ..)
        rw [firstBlock_min hr] at hround
        by_cases hmore : 512 ^ (r + 1) < k
        · simp only [if_pos hmore]
          rw [Nat.min_eq_right hmore.le] at hround ⊢
          have hrest : ∀ st'', fits (vpn va) (512 ^ (r + 1)) → Ext flags root st' st'' → ∃ need',
              Outcome flags root st'' (vpn va + 512 ^ (r + 1)) (k - 512 ^ (r + 1))
                (u64 (pa + (4096 * 512 ^ (r + 1) : Nat)))
                (loopFits r fits (i + 1) (vpn va + 512 ^ (r + 1)) (k - 512 ^ (r + 1))) need'
                (mapTableLoop flags (4096 * 512 ^ (r + 1)) errno huge inner table fuel st'' (i + 1)
                  (u64 (va + (4096 * 512 ^ (r + 1) : Nat)))
                  (u64 (pa + (4096 * 512 ^ (r + 1) : Nat))) (4096 * (k - 512 ^ (r + 1)))) :=
            fun st'' hfit hext =>
              ⟨_, ih hext.tables ((hext'.trans hext).grow hp) (show i + 1 ≤ 512 from hlt)
                (by omega) (next_place hr hva hn (hwhole.start hfit)) (hva.add _) (hpa.add _)
                (Nat.sub_pos_of_lt hmore)⟩
          have hall := hround.bind (Nat.pow_pos (by decide))
            (fun h => Nat.min_eq_right hmore.le ▸ loopFits_round hwhole h)
            (loopFits_next hr hwhole hmore) (u64_add_mod pa _) hrest
          rwa [Nat.add_sub_cancel' hmore.le] at hall
        · simp only [if_neg hmore]
          have hlast := Nat.le_of_not_lt hmore
          rw [Nat.min_eq_left hlast] at hround ⊢
          exact hround.bind hk (fun h => Nat.min_eq_left hlast ▸ loopFits_round hwhole h)
            (fun h => iff_of_true (loopFits_last hlt hlast ((Nat.min_eq_left hlast).symm ▸ h))
              trivial)
            (u64_add_mod pa k) fun st'' _ hext => ⟨_, .nothing hext.tables⟩
    · obtain rfl : i = 512 := by omega
      rw [mapTableLoop, PtState.load, if_neg hlt]
      exact .fault fun h => absurd h (not_loopFits_end hk)

end table

/-! ## `pagetable_map` -/

def pudFits (n k : Nat) : Prop := loopFits 1 pmdFits (n / 262144 % 512) n k

def pgdFits (n k : Nat) : Prop := loopFits 2 pudFits (n / 134217728) n k

theorem pmdFits_whole : Whole 1 pmdFits where
  start h := by
    unfold pmdFits at h
    omega
  part hstart hk := by
    unfold pmdFits
    omega

theorem pudFits_whole : Whole 2 pudFits where
  start h := by
    unfold pudFits loopFits at h
    rw [if_neg (by decide)] at h
    omega
  part hstart hk := by
    unfold pudFits loopFits pmdFits
    split <;> omega

section pagetable

variable {flags : Flags} {root : Nat} {st : PtState}

theorem mapPudRange_serves : Serves flags root 2 pudFits (mapPudRange flags) := by
  intro st pud va pa k hst hp hva hpa hk _
  have hinner : Serves flags root 1 pmdFits (mapPmdRange flags) := mapPmdRange_outcome
  have hhuge : ∀ e va pa size, canMapPudHuge flags e va pa size = true →
      flags.has vmHuge1G = true := by
    intro e va pa size h
    simp only [canMapPudHuge, Bool.and_eq_true] at h
    exact h.1.1.1.1
  have hi : vpn va / 262144 % 512 < 512 := Nat.mod_lt _ (by decide)
  unfold mapPudRange
  rw [pudIndex_eq]
  apply mapTableLoop_outcome (.inl rfl) hinner pmdFits_whole (by decide) hhuge rounds hst hp hi.le
    (Nat.le_add_left ..) _ hva hpa hk
  intro _
  exact ⟨rfl, by omega⟩

theorem mapPgdRange_outcome {va pa k : Nat} (hst : Tables root st) (hva : PageAddr va)
    (hpa : PageAddr pa) (hk : 0 < k) :
    Outcome flags root st (vpn va) k pa (pgdFits (vpn va) k)
      (tablesNeeded (firstBlock flags (vpn va) pa k) (look st.mem root (vpn va)))
      (mapPgdRange flags st (ptov root) va pa (4096 * k)) := by
  have hp : IsTable st.mem root 3 0 (vtop (ptov root)) := by
    rw [vtop_ptov hst.root_lt]
    exact .root
  have hlt := vpn_lt va
  have hhuge : ∀ (e : Pte) (va pa size : Nat), false = true → flags.has vmHuge1G = true :=
    fun _ _ _ _ h => Bool.noConfusion h
  unfold mapPgdRange
  rw [pgdIndex_eq]
  apply mapTableLoop_outcome (.inr rfl) mapPudRange_serves pudFits_whole (by decide) hhuge rounds
    hst hp _ (Nat.le_add_left ..) _ hva hpa hk
  · omega
  · intro _
    exact ⟨rfl, by omega⟩

end pagetable

end SpringOs.PageTable
