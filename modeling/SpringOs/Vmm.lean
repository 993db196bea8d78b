import SpringOs.Kernel
import SpringOs.Lib.Machine

/-!
The address space of a process in the root service: `split_vma`, `request_vma` and
`vspace_init` of `vmm.c`.

A region from `halloc` has old contents, and `halloc` may fail; both are part of a request.

* **`requestVma`**: the function, with `search` for its loop over the free regions;
* `owners`: how many regions of the two lists an address lies in;
* `splitVma_has`: what a split does to the owners of an address;
* `request_vma_exact`: which requests keep every address of the area owned once;
* `step_inArea`: requests that do not wrap around keep all regions in the area;
* `request_vma_served_iff`: which requests get what they ask for, and when a request fails.
-/

namespace SpringOs.Vmm
open Kernel Lib.Word Lib.Machine

variable {start stop base newend size perm : Nat} {anon : Int}

/-! ## Requests -/

/-- `stop` is the `end` of the source. -/
structure Vma where
  start : Nat
  stop : Nat
  perm : Nat
  anon : Int
  deriving DecidableEq

structure VSpace where
  vmaFree : List Vma
  vmaUsed : List Vma

/-- The mmap area: 4 GiB less a page, below the stack and a page. -/
def processMmapTop : Nat := 0x3fbffff000
def processMmapBottom : Nat := 0x3ec0000000

/-- The lists after `vspace_init`, with what `halloc_zero` leaves in the region. -/
def vspaceInit : VSpace := ⟨[⟨processMmapBottom, processMmapTop, 0, 0⟩], []⟩

/-- A new free region, in the memory that `halloc` answers with. -/
def addFree (sp : VSpace) (start stop : Nat) :
    List (Option Vma) → Except Fault (VSpace × List (Option Vma))
  | some old :: allocs =>
    .ok ({ sp with vmaFree := { old with start := start, stop := stop } :: sp.vmaFree }, allocs)
  | _ => .error .nullDeref

def splitVma (sp : VSpace) (vma : Vma) (base stop : Nat) (allocs : List (Option Vma)) :
    Except Fault (Vma × VSpace) :=
  if ¬ (base ≥ vma.start ∧ stop ≤ vma.stop) then .error (.assertion .splitVma)
  else do
    let (sp, allocs) ← (if base > vma.start then addFree sp vma.start vma.stop allocs
      else .ok (sp, allocs))
    let (sp, _) ← (if stop < vma.stop then addFree sp stop vma.stop allocs
      else .ok (sp, allocs))
    .ok ({ vma with start := base, stop := stop }, sp)

/-- What the loop of `request_vma` finds. -/
structure Found where
  out : Vma
  newbase : Nat
  newend : Nat
  rest : List Vma

/-- The loop of `request_vma`; `rest` is the list without the region found. -/
def search (base newend : Nat) : List Vma → Option Found
  | [] => none
  | vma :: rest =>
    let newbase := if base = 0 then vma.start else base
    let newend' := if base = 0 then vma.stop else newend
    if newbase ≥ vma.start ∧ newend' ≤ vma.stop then some ⟨vma, newbase, newend', rest⟩
    else (search base newend rest).map fun f => { f with rest := vma :: f.rest }

def requestVma (sp : VSpace) (base size perm : Nat) (anon : Int) (allocs : List (Option Vma)) :
    Except Fault (Option Vma × VSpace) :=
  if base ≠ 0 ∧ !isAligned base 4096 then .ok (none, sp)
  else
    match search base (u64 (base + size)) sp.vmaFree with
    | none => .ok (none, sp)
    | some f => do
      let (out, sp) ← splitVma { sp with vmaFree := f.rest } f.out f.newbase f.newend allocs
      let out := { out with perm := perm, anon := anon }
      .ok (some out, { sp with vmaUsed := out :: sp.vmaUsed })

/-! ## Owners -/

def Vma.has (vma : Vma) (a : Nat) : Bool := decide (vma.start ≤ a) && decide (a < vma.stop)

def owners (sp : VSpace) (a : Nat) : Nat := (sp.vmaFree ++ sp.vmaUsed).countP (·.has a)

/-- Every address of the area has one owner, and no other address has any. -/
def Exact (sp : VSpace) : Prop :=
  ∀ a, owners sp a = if processMmapBottom ≤ a ∧ a < processMmapTop then 1 else 0

/-- An address in the interval from `start` to `stop`. -/
def within (start stop a : Nat) : Nat := if start ≤ a ∧ a < stop then 1 else 0

theorem countP_has (v : Vma) (l : List Vma) (a : Nat) :
    (v :: l).countP (·.has a) = l.countP (·.has a) + within v.start v.stop a := by
  rw [List.countP_cons]
  simp [Vma.has, within]

variable {sp sp' : VSpace} {allocs : List (Option Vma)}

theorem addFree_has {allocs' : List (Option Vma)}
    (h : addFree sp start stop allocs = .ok (sp', allocs')) :
    sp'.vmaUsed = sp.vmaUsed ∧
      (∀ v ∈ sp'.vmaFree, v ∈ sp.vmaFree ∨ v.start = start ∧ v.stop = stop) ∧
      ∀ a, sp'.vmaFree.countP (·.has a) = sp.vmaFree.countP (·.has a) + within start stop a := by
  cases allocs with
  | nil => cases h
  | cons old allocs =>
    cases old with
    | none => cases h
    | some old =>
      cases h
      refine ⟨rfl, fun v hv => ?_, fun a => countP_has _ _ a⟩
      rcases List.mem_cons.1 hv with rfl | hv
      · exact .inr ⟨rfl, rfl⟩
      · exact .inl hv

theorem addFree_if {c : Prop} [Decidable c] {r : VSpace × List (Option Vma)}
    (h : (if c then addFree sp start stop allocs else .ok (sp, allocs)) = .ok r) :
    r.1.vmaUsed = sp.vmaUsed ∧
      (∀ v ∈ r.1.vmaFree, v ∈ sp.vmaFree ∨ c ∧ v.start = start ∧ v.stop = stop) ∧
      ∀ a, r.1.vmaFree.countP (·.has a) =
        sp.vmaFree.countP (·.has a) + if c then within start stop a else 0 := by
  split at h
  · rename_i hc
    obtain ⟨hused, hmem, hcount⟩ := addFree_has h
    refine ⟨hused, fun v hv => (hmem v hv).imp_right fun hv => ⟨hc, hv⟩, fun a => ?_⟩
    rw [hcount, if_pos hc]
  · rename_i hc
    cases h
    refine ⟨rfl, fun v hv => .inl hv, fun a => ?_⟩
    rw [if_neg hc, Nat.add_zero]

/-- The regions that a split leaves: the whole region for a prefix, and the suffix. -/
theorem splitVma_has {vma out : Vma} (h : splitVma sp vma base stop allocs = .ok (out, sp')) :
    (out.start = base ∧ out.stop = stop) ∧ sp'.vmaUsed = sp.vmaUsed ∧
      (∀ v ∈ sp'.vmaFree, v ∈ sp.vmaFree ∨ v.start = vma.start ∧ v.stop = vma.stop ∨
        stop < vma.stop ∧ v.start = stop ∧ v.stop = vma.stop) ∧
      ∀ a, sp'.vmaFree.countP (·.has a) = sp.vmaFree.countP (·.has a) +
        (if base > vma.start then within vma.start vma.stop a else 0) +
        if stop < vma.stop then within stop vma.stop a else 0 := by
  unfold splitVma at h
  split at h
  · cases h
  · obtain ⟨⟨sp1, allocs1⟩, h1, h⟩ := ok_of_bind h
    obtain ⟨⟨sp2, allocs2⟩, h2, h⟩ := ok_of_bind h
    cases h
    obtain ⟨hused1, hmem1, hcount1⟩ := addFree_if h1
    obtain ⟨hused2, hmem2, hcount2⟩ := addFree_if h2
    refine ⟨⟨rfl, rfl⟩, hused2.trans hused1, fun v hv => ?_, fun a => ?_⟩
    · rcases hmem2 v hv with hv | hsuffix
      · exact (hmem1 v hv).imp_right fun h => .inl h.2
      · exact .inr (.inr hsuffix)
    · rw [hcount2, hcount1]

/-! ## The search -/

def covers (base newend : Nat) (vma : Vma) : Bool :=
  decide (base ≥ vma.start) && decide (newend ≤ vma.stop)

theorem search_zero (newend : Nat) (v : Vma) (l : List Vma) :
    search 0 newend (v :: l) = some ⟨v, v.start, v.stop, l⟩ := by
  simp [search]

theorem search_cons (hbase : base ≠ 0) (newend : Nat) (v : Vma) (l : List Vma) :
    search base newend (v :: l) =
      if covers base newend v then some ⟨v, base, newend, l⟩
      else (search base newend l).map fun f => { f with rest := v :: f.rest } := by
  simp [search, hbase, covers]

variable {l : List Vma} {f : Found} {r : Option Vma}

theorem search_zero_some (h : search 0 newend l = some f) :
    l = f.out :: f.rest ∧ f.newbase = f.out.start ∧ f.newend = f.out.stop := by
  cases l with
  | nil => cases h
  | cons v l =>
    rw [search_zero] at h
    cases h
    exact ⟨rfl, rfl, rfl⟩

theorem search_base (hbase : base ≠ 0) (newend : Nat) (l : List Vma) :
    match search base newend l with
    | none => l.find? (covers base newend) = none
    | some f => l.find? (covers base newend) = some f.out ∧ f.newbase = base ∧
        f.newend = newend ∧ ∃ pre post, l = pre ++ f.out :: post ∧ f.rest = pre ++ post := by
  induction l with
  | nil => rfl
  | cons v l ih =>
    rw [search_cons hbase]
    cases hcov : covers base newend v with
    | true =>
      rw [if_pos rfl]
      exact ⟨List.find?_cons_of_pos hcov, rfl, rfl, [], l, rfl, rfl⟩
    | false =>
      have hfind : (v :: l).find? (covers base newend) = l.find? (covers base newend) :=
        List.find?_cons_of_neg (by simp [hcov])
      rw [hfind]
      cases hs : search base newend l with
      | none =>
        rw [hs] at ih
        exact ih
      | some f =>
        rw [hs] at ih
        obtain ⟨hf, hnb, hne, pre, post, rfl, hrest⟩ := ih
        exact ⟨hf, hnb, hne, v :: pre, post, rfl, congrArg (v :: ·) hrest⟩

/-- The region found contains the part that is cut out, which is the test of the loop. -/
theorem search_bounds (h : search base newend l = some f) :
    f.out.start ≤ f.newbase ∧ f.newend ≤ f.out.stop := by
  by_cases hbase : base = 0
  · subst hbase
    obtain ⟨-, hstart, hstop⟩ := search_zero_some h
    omega
  · have hfound := search_base hbase newend l
    simp only [h] at hfound
    obtain ⟨hfind, hstart, hstop, -⟩ := hfound
    have hcov := List.find?_some hfind
    simp only [covers, Bool.and_eq_true, decide_eq_true_eq] at hcov
    omega

theorem search_mem (h : search base newend l = some f) : f.out ∈ l ∧ ∀ v ∈ f.rest, v ∈ l := by
  by_cases hbase : base = 0
  · subst hbase
    obtain ⟨rfl, -⟩ := search_zero_some h
    exact ⟨List.mem_cons_self, fun v hv => List.mem_cons_of_mem _ hv⟩
  · have hfound := search_base hbase newend l
    simp only [h] at hfound
    obtain ⟨-, -, -, pre, post, rfl, hrest⟩ := hfound
    refine ⟨by simp, fun v hv => ?_⟩
    rw [hrest] at hv
    simp only [List.mem_append, List.mem_cons] at hv ⊢
    exact hv.imp_right .inr

/-! ## One request -/

/-- The regions that stem from one region own what it owned, exactly in these cases. -/
theorem within_split_iff {s e nb ne : Nat} (hse : s < e) (hnb : s ≤ nb) (hne : ne ≤ e) :
    (∀ a, within s e a = (if nb > s then within s e a else 0) +
        (if ne < e then within ne e a else 0) + within nb ne a) ↔
      nb = s ∧ s ≤ ne ∨ e ≤ nb ∧ ne = e := by
  constructor
  · intro h
    have hatne := h ne
    have hatnb := h nb
    unfold within at hatne hatnb
    split at hatne <;> split at hatnb <;> grind
  · intro h a
    unfold within
    grind

theorem requestVma_found (h : requestVma sp base size perm anon allocs = .ok (r, sp'))
    (halign : ¬ (base ≠ 0 ∧ !isAligned base 4096))
    (hs : search base (u64 (base + size)) sp.vmaFree = some f) (pre : List Vma) {post : List Vma}
    (hfree : sp.vmaFree = pre ++ f.out :: post) (hrest : f.rest = pre ++ post)
    (hlt : ∀ v ∈ sp.vmaFree, v.start < v.stop) :
    (∀ v ∈ sp'.vmaFree, v.start < v.stop) ∧ f.out.start ≤ f.newbase ∧ f.newend ≤ f.out.stop ∧
      ∀ a, owners sp' a + within f.out.start f.out.stop a = owners sp a +
        ((if f.newbase > f.out.start then within f.out.start f.out.stop a else 0) +
          (if f.newend < f.out.stop then within f.newend f.out.stop a else 0) +
          within f.newbase f.newend a) := by
  rw [requestVma, if_neg halign] at h
  simp only [hs] at h
  obtain ⟨⟨out, sp1⟩, hsplit, h⟩ := ok_of_bind h
  cases h
  obtain ⟨⟨hstart, hstop⟩, hused, hmem, hcount⟩ := splitVma_has hsplit
  have hbounds := search_bounds hs
  refine ⟨fun v hv => ?_, hbounds.1, hbounds.2, fun a => ?_⟩
  · rcases hmem v hv with hv | ⟨hstart, hstop⟩ | ⟨hlt', hstart, hstop⟩
    · apply hlt v
      rw [hfree]
      rw [hrest] at hv
      simp only [List.mem_append, List.mem_cons] at hv ⊢
      exact hv.imp_right .inr
    · have hout := hlt f.out (by rw [hfree]; simp)
      omega
    · omega
  · have hfresh := hcount a
    have hkept : sp1.vmaUsed = sp.vmaUsed := hused
    simp only [hrest, List.countP_append] at hfresh
    unfold owners
    rw [List.countP_append, List.countP_append, hfresh, countP_has, hkept, hfree,
      List.countP_append, countP_has, hstart, hstop]
    omega

structure Request where
  base : BitVec 64
  size : BitVec 64
  perm : Nat
  anon : Int
  allocs : List (Option Vma)

def step (sp : VSpace) (r : Request) : Option VSpace :=
  (requestVma sp r.base.toNat r.size.toNat r.perm r.anon r.allocs).toOption.map Prod.snd

/-- The first region that passes the test of the loop, if there is one, starts at the base
and is long enough, or ends before the base, where the request wraps around to. -/
def okRequest (sp : VSpace) (r : Request) : Prop :=
  r.base.toNat = 0 ∨ isAligned r.base.toNat 4096 = false ∨
    ∀ v, sp.vmaFree.find? (covers r.base.toNat (u64 (r.base.toNat + r.size.toNat))) = some v →
      r.base.toNat = v.start ∧ r.base.toNat + r.size.toNat ≤ v.stop ∨
        v.stop ≤ r.base.toNat ∧ u64 (r.base.toNat + r.size.toNat) = v.stop

def Good (sp : VSpace) : Prop := Exact sp ∧ ∀ v ∈ sp.vmaFree, v.start < v.stop

theorem vspaceInit_good : Good vspaceInit := by
  constructor
  · intro a
    rw [owners, vspaceInit, List.append_nil, countP_has]
    simp [within]
  · simp [vspaceInit, processMmapBottom, processMmapTop]

/-- A free region lies in the area, since its last address has an owner. -/
theorem Good.stop_le (h : Good sp) {v : Vma} (hv : v ∈ sp.vmaFree) : v.stop ≤ processMmapTop := by
  have hlt := h.2 v hv
  have hhas : v.has (v.stop - 1) = true := by
    simp only [Vma.has, Bool.and_eq_true, decide_eq_true_eq]
    omega
  have hpos : 0 < owners sp (v.stop - 1) :=
    List.countP_pos_iff.2 ⟨v, List.mem_append_left _ hv, hhas⟩
  rw [h.1] at hpos
  split at hpos
  · omega
  · omega

/-- Owners change only by what the region found and its parts own. -/
theorem exact_iff_within {old new : Nat → Nat} (h : Exact sp)
    (hchange : ∀ a, owners sp' a + old a = owners sp a + new a) :
    Exact sp' ↔ ∀ a, old a = new a := by
  constructor
  · intro h' a
    have hold := h a
    have hnew := h' a
    have hsum := hchange a
    omega
  · intro heq a
    have hold := h a
    have hsum := hchange a
    have hsame := heq a
    omega

/-- Where the area ends below the 64 bits, a request that is cut from its start does not wrap. -/
theorem cut_iff_noWrap (hbase : base < 2 ^ 64) (hsize : size < 2 ^ 64)
    (htop : stop ≤ processMmapTop) (hhi : u64 (base + size) ≤ stop) :
    base = start ∧ start ≤ u64 (base + size) ∨ stop ≤ base ∧ u64 (base + size) = stop ↔
      base = start ∧ base + size ≤ stop ∨ stop ≤ base ∧ u64 (base + size) = stop := by
  unfold processMmapTop at htop
  unfold u64 at hhi ⊢
  omega

/-- One more request keeps the owners exact just if it is one of those. -/
theorem step_exact_iff {r : Request} (h : Good sp) (hstep : step sp r = some sp') :
    (∀ v ∈ sp'.vmaFree, v.start < v.stop) ∧ (Exact sp' ↔ okRequest sp r) := by
  obtain ⟨⟨out, sp1⟩, hreq, rfl⟩ := Option.map_eq_some_iff.1 hstep
  replace hreq := ok_of_toOption hreq
  have hstop : ∀ v ∈ sp.vmaFree, v.stop ≤ processMmapTop := fun v hv => h.stop_le hv
  obtain ⟨hexact, hlt⟩ := h
  by_cases hrefused : r.base.toNat ≠ 0 ∧ !isAligned r.base.toNat 4096
  · rw [requestVma, if_pos hrefused] at hreq
    cases hreq
    exact ⟨hlt, iff_of_true hexact (.inr (.inl (by simpa using hrefused.2)))⟩
  · cases hs : search r.base.toNat (u64 (r.base.toNat + r.size.toNat)) sp.vmaFree with
    | none =>
      rw [requestVma, if_neg hrefused] at hreq
      simp only [hs] at hreq
      cases hreq
      refine ⟨hlt, iff_of_true hexact ?_⟩
      by_cases hbase : r.base.toNat = 0
      · exact .inl hbase
      · have hfind := search_base hbase (u64 (r.base.toNat + r.size.toNat)) sp.vmaFree
        simp only [hs] at hfind
        exact .inr (.inr fun v hv => by simp [hfind] at hv)
    | some f =>
      by_cases hbase : r.base.toNat = 0
      · rw [hbase] at hs
        obtain ⟨hfree, hnb, hne⟩ := search_zero_some hs
        obtain ⟨hlt', hlo, hhi, howners⟩ := requestVma_found hreq hrefused (hbase ▸ hs) []
          hfree rfl hlt
        have hout := hlt f.out (by rw [hfree]; simp)
        refine ⟨hlt', iff_of_true ((exact_iff_within hexact howners).2 ?_) (.inl hbase)⟩
        exact (within_split_iff hout hlo hhi).2 (.inl ⟨hnb, by omega⟩)
      · have hfound := search_base hbase (u64 (r.base.toNat + r.size.toNat)) sp.vmaFree
        simp only [hs] at hfound
        obtain ⟨hfind, hnb, hne, pre, post, hfree, hrest⟩ := hfound
        obtain ⟨hlt', hlo, hhi, howners⟩ := requestVma_found hreq hrefused hs pre hfree hrest hlt
        have hout := hlt f.out (by rw [hfree]; simp)
        refine ⟨hlt', (exact_iff_within hexact howners).trans ?_⟩
        rw [within_split_iff hout hlo hhi, hnb, hne]
        rw [hne] at hhi
        rw [cut_iff_noWrap r.base.isLt r.size.isLt (hstop f.out (by rw [hfree]; simp)) hhi]
        constructor
        · intro hok
          refine .inr (.inr fun v hv => ?_)
          rw [hfind] at hv
          cases hv
          exact hok
        · rintro (hzero | hunaligned | hok)
          · exact absurd hzero hbase
          · exact absurd ⟨hbase, by simp [hunaligned]⟩ hrefused
          · exact hok f.out hfind

/-- **Requests for address space**, in every run from `vspace_init` whose requests are all
among those of `okRequest`: every address of the area has one owner and no other has any,
and one more request that returns keeps this exactly when it is among them. -/
theorem request_vma_exact {sp : VSpace} (h : Steps step okRequest vspaceInit sp) :
    Exact sp ∧ ∀ r sp', step sp r = some sp' → (Exact sp' ↔ okRequest sp r) := by
  have hgood : Good sp := by
    refine h.invariant vspaceInit_good fun _ _ _ hgood hok hstep => ?_
    obtain ⟨hlt, hiff⟩ := step_exact_iff hgood hstep
    exact ⟨hiff.2 hok, hlt⟩
  exact ⟨hgood.1, fun r sp' hstep => (step_exact_iff hgood hstep).2⟩

def firstPage : Request := ⟨0x3ec0000000#64, 4096#64, 0, 1, [some ⟨0, 0, 0, 0⟩]⟩

theorem request_vma_exact_first_page :
    ∃ sp, step vspaceInit firstPage = some sp ∧ Steps step okRequest vspaceInit sp ∧ Exact sp := by
  have hok : okRequest vspaceInit firstPage := by
    refine .inr (.inr fun v hv => ?_)
    cases hv
    exact .inl (by decide)
  have hstep : ∃ sp, step vspaceInit firstPage = some sp := ⟨_, rfl⟩
  obtain ⟨sp, hsp⟩ := hstep
  have hrun := (Steps.refl).tail firstPage hok hsp
  exact ⟨sp, hsp, hrun, (request_vma_exact hrun).1⟩

def secondPage : Request :=
  ⟨0x3ec0001000#64, 4096#64, 0, 1, [some ⟨0, 0, 0, 0⟩, some ⟨0, 0, 0, 0⟩]⟩

/-- The prefix that is left keeps the end of the whole region: the page handed out stays
free as well, and what follows it is free twice. -/
theorem request_vma_overlap :
    (step vspaceInit secondPage).map (fun sp => (owners sp 0x3ec0001000, owners sp 0x3ec0002000)) =
      some (2, 2) := by
  decide +kernel

/-! ## Regions in the area -/

/-- A request returns nothing and changes nothing, or it splits the region that the loop finds. -/
theorem requestVma_cases (h : requestVma sp base size perm anon allocs = .ok (r, sp')) :
    (r = none ∧ sp' = sp) ∨
      ∃ f out sp1, ¬ (base ≠ 0 ∧ !isAligned base 4096) ∧
        search base (u64 (base + size)) sp.vmaFree = some f ∧
        splitVma { sp with vmaFree := f.rest } f.out f.newbase f.newend allocs = .ok (out, sp1) ∧
        r = some { out with perm := perm, anon := anon } ∧
        sp' = { sp1 with vmaUsed := { out with perm := perm, anon := anon } :: sp1.vmaUsed } := by
  unfold requestVma at h
  split at h
  · cases h
    exact .inl ⟨rfl, rfl⟩
  · rename_i halign
    split at h
    · cases h
      exact .inl ⟨rfl, rfl⟩
    · rename_i f hs
      obtain ⟨⟨out, sp1⟩, hsplit, h⟩ := ok_of_bind h
      cases h
      exact .inr ⟨f, out, sp1, halign, hs, hsplit, rfl, rfl⟩

structure InArea (sp : VSpace) : Prop where
  free : ∀ v ∈ sp.vmaFree,
    processMmapBottom ≤ v.start ∧ v.start < v.stop ∧ v.stop ≤ processMmapTop
  used : ∀ v ∈ sp.vmaUsed, processMmapBottom ≤ v.start ∧ v.stop ≤ processMmapTop

theorem vspaceInit_inArea : InArea vspaceInit := by
  constructor
  · simp [vspaceInit, processMmapBottom, processMmapTop]
  · simp [vspaceInit]

/-- A request among those of `okRequest`, or one whose end does not wrap around. -/
def staysInArea (sp : VSpace) (r : Request) : Prop :=
  okRequest sp r ∨ r.base.toNat + r.size.toNat < 2 ^ 64

/-- The end that such a request computes is not below the region that it is cut from. -/
theorem staysInArea.start_le {r : Request} (hok : staysInArea sp r) (h : InArea sp)
    (halign : ¬ (r.base.toNat ≠ 0 ∧ !isAligned r.base.toNat 4096))
    (hs : search r.base.toNat (u64 (r.base.toNat + r.size.toNat)) sp.vmaFree = some f) :
    f.out.start ≤ f.newend := by
  obtain ⟨-, hlt, htop⟩ := h.free f.out (search_mem hs).1
  by_cases hbase : r.base.toNat = 0
  · rw [hbase] at hs
    obtain ⟨-, -, hend⟩ := search_zero_some hs
    omega
  · have hfound := search_base hbase (u64 (r.base.toNat + r.size.toNat)) sp.vmaFree
    simp only [hs] at hfound
    obtain ⟨hfind, hstart, hend, -⟩ := hfound
    have hbounds := search_bounds hs
    rw [hstart, hend] at hbounds
    rw [hend]
    unfold processMmapTop at htop
    rcases hok with (hzero | hunaligned | hok) | hwrap
    · exact absurd hzero hbase
    · exact absurd ⟨hbase, by simp [hunaligned]⟩ halign
    · unfold u64 at hok ⊢
      rcases hok f.out hfind with hcut | hempty
      · omega
      · omega
    · unfold u64
      omega

/-- A prefix ends where the whole region does, and a suffix begins at the end of the request:
both stay in the area as long as that end does. -/
theorem step_inArea {r : Request} (h : InArea sp) (hok : staysInArea sp r)
    (hstep : step sp r = some sp') : InArea sp' := by
  obtain ⟨⟨res, sp1⟩, hreq, rfl⟩ := Option.map_eq_some_iff.1 hstep
  rcases requestVma_cases (ok_of_toOption hreq) with ⟨-, rfl⟩ |
    ⟨f, out, sp2, halign, hs, hsplit, -, rfl⟩
  · exact h
  · have hend := hok.start_le h halign hs
    obtain ⟨hmem, hrest⟩ := search_mem hs
    obtain ⟨hbottom, hlt, htop⟩ := h.free f.out hmem
    obtain ⟨⟨hstart, hstop⟩, hused, hfree, -⟩ := splitVma_has hsplit
    have hbounds := search_bounds hs
    refine ⟨fun v hv => ?_, fun v hv => ?_⟩
    · rcases hfree v hv with hv | ⟨hvs, hve⟩ | ⟨hlt', hvs, hve⟩
      · exact h.free v (hrest v hv)
      · omega
      · omega
    · rcases List.mem_cons.1 hv with rfl | hv
      · simp only
        omega
      · rw [hused] at hv
        exact h.used v hv

/-! ## What a request returns -/

/-- Every piece of `v` that `out` leaves lies in one of the free regions. -/
def RestFree (v out : Vma) (free : List Vma) : Prop :=
  ∀ b e, v.start ≤ b → b < e → e ≤ v.stop → (e ≤ out.start ∨ out.stop ≤ b) →
    ∃ w ∈ free, w.start ≤ b ∧ e ≤ w.stop

/-- The region is cut out of the free region `v`, as asked for, and the rest stays free. -/
structure CutFrom (v : Vma) (base size perm : Nat) (anon : Int) (out : Vma)
    (free : List Vma) : Prop where
  lower : v.start ≤ out.start
  upper : out.stop ≤ v.stop
  length : out.stop = out.start + size
  fixed : base ≠ 0 → out.start = base
  perm : out.perm = perm
  anon : out.anon = anon
  rest : RestFree v out free

/-- What a request that returns should do, whatever `halloc` answers; when it does not return
is said by `requestVma_error_iff`. -/
def Served (sp : VSpace) (base size perm : Nat) (anon : Int) : Prop :=
  ∀ allocs r sp', requestVma sp base size perm anon allocs = .ok (r, sp') →
    (∀ out, r = some out → ∃ v ∈ sp.vmaFree, CutFrom v base size perm anon out sp'.vmaFree) ∧
    (base = 0 → (∃ v ∈ sp.vmaFree, v.start + size ≤ v.stop) → r ≠ none)

/-- Without a base the first region is as long as the request; with one, the end of the
request does not wrap around to an address that some region reaches. -/
def Servable (sp : VSpace) (base size : Nat) : Prop :=
  if base = 0 then ∀ v, sp.vmaFree.head? = some v → v.stop = v.start + size
  else ∀ v, sp.vmaFree.find? (covers base (u64 (base + size))) = some v → base + size < 2 ^ 64

theorem addFree_if_mem {c : Prop} [Decidable c] {r : VSpace × List (Option Vma)}
    (h : (if c then addFree sp start stop allocs else .ok (sp, allocs)) = .ok r) :
    (∀ v ∈ sp.vmaFree, v ∈ r.1.vmaFree) ∧
      (c → ∃ w ∈ r.1.vmaFree, w.start = start ∧ w.stop = stop) := by
  split at h
  · rename_i hc
    match allocs, h with
    | some old :: rest, h =>
      cases h
      exact ⟨fun v hv => List.mem_cons_of_mem _ hv, fun _ => ⟨_, List.mem_cons_self, rfl, rfl⟩⟩
  · rename_i hc
    cases h
    exact ⟨fun v hv => hv, fun h => absurd h hc⟩

/-- What a split leaves in the free list covers both sides of the part cut out. -/
theorem splitVma_rest {vma out : Vma} (h : splitVma sp vma base stop allocs = .ok (out, sp')) :
    out.start = base ∧ out.stop = stop ∧ RestFree vma out sp'.vmaFree := by
  unfold splitVma at h
  split at h
  · cases h
  · obtain ⟨⟨sp1, allocs1⟩, h1, h⟩ := ok_of_bind h
    obtain ⟨⟨sp2, allocs2⟩, h2, h⟩ := ok_of_bind h
    cases h
    obtain ⟨-, hlower⟩ := addFree_if_mem h1
    obtain ⟨hkept, hupper⟩ := addFree_if_mem h2
    refine ⟨rfl, rfl, fun b e hb hbe he hout => ?_⟩
    rcases hout with hout | hout
    · obtain ⟨w, hw, hstart, hstop⟩ := hlower (by simp only at hout; omega)
      exact ⟨w, hkept w hw, by omega, by omega⟩
    · obtain ⟨w, hw, hstart, hstop⟩ := hupper (by simp only at hout; omega)
      exact ⟨w, hw, by simp only at hout; omega, by omega⟩

theorem requestVma_cut (h : requestVma sp base size perm anon allocs = .ok (r, sp'))
    (halign : ¬ (base ≠ 0 ∧ !isAligned base 4096))
    (hs : search base (u64 (base + size)) sp.vmaFree = some f) :
    ∃ out, r = some out ∧ out.start = f.newbase ∧ out.stop = f.newend ∧ out.perm = perm ∧
      out.anon = anon ∧ f.out.start ≤ f.newbase ∧ f.newend ≤ f.out.stop ∧
      RestFree f.out out sp'.vmaFree := by
  rw [requestVma, if_neg halign] at h
  simp only [hs] at h
  obtain ⟨⟨out, sp1⟩, hsplit, h⟩ := ok_of_bind h
  cases h
  obtain ⟨hlo, hhi⟩ := search_bounds hs
  obtain ⟨hstart, hstop, hrest⟩ := splitVma_rest hsplit
  exact ⟨_, rfl, hstart, hstop, rfl, rfl, hlo, hhi, hrest⟩

theorem requestVma_returns (perm : Nat) (anon : Int) (halign : ¬ (base ≠ 0 ∧ !isAligned base 4096))
    (hs : search base (u64 (base + size)) sp.vmaFree = some f) (v : Vma) :
    ∃ r sp', requestVma sp base size perm anon [some v, some v] = .ok (r, sp') := by
  rw [requestVma, if_neg halign]
  simp only [hs]
  rw [splitVma, if_neg (not_not.2 (search_bounds hs))]
  split <;> split <;> exact ⟨_, _, rfl⟩

/-- The regions that the split of a request needs: one for a prefix, one for a suffix. -/
def Found.pieces (f : Found) : Nat :=
  (if f.newbase > f.out.start then 1 else 0) + if f.newend < f.out.stop then 1 else 0

/-- A split of a part of the region fails only through the first `NULL` of `halloc`. -/
theorem splitVma_error_iff (sp : VSpace) (hin : f.out.start ≤ f.newbase ∧ f.newend ≤ f.out.stop)
    (allocs : List (Option Vma)) (e : Fault) :
    splitVma sp f.out f.newbase f.newend allocs = .error e ↔
      e = .nullDeref ∧ (allocs.takeWhile Option.isSome).length < f.pieces := by
  rw [splitVma, if_neg (not_not.2 hin), Found.pieces]
  rcases allocs with _ | ⟨_ | v, _ | ⟨_ | w, allocs⟩⟩
  all_goals
    split_ifs
    all_goals simp [addFree, eq_comm, bind, Except.bind]

/-- A request fails just where the split needs more regions than `halloc` has for it. -/
theorem requestVma_error_iff (sp : VSpace) (size perm : Nat) (anon : Int)
    (halign : ¬ (base ≠ 0 ∧ !isAligned base 4096)) (allocs : List (Option Vma)) (e : Fault) :
    requestVma sp base size perm anon allocs = .error e ↔
      e = .nullDeref ∧ ∃ f, search base (u64 (base + size)) sp.vmaFree = some f ∧
        (allocs.takeWhile Option.isSome).length < f.pieces := by
  rw [requestVma, if_neg halign]
  cases hs : search base (u64 (base + size)) sp.vmaFree with
  | none => simp
  | some f =>
    have hsplit := splitVma_error_iff { sp with vmaFree := f.rest } (search_bounds hs) allocs e
    simp only [Option.some.injEq, exists_eq_left']
    rw [← hsplit]
    cases splitVma { sp with vmaFree := f.rest } f.out f.newbase f.newend allocs with
    | error e' => simp [bind, Except.bind]
    | ok r => simp [bind, Except.bind]

theorem served_zero_iff (sp : VSpace) (size perm : Nat) (anon : Int) :
    Served sp 0 size perm anon ↔ ∀ v, sp.vmaFree.head? = some v → v.stop = v.start + size := by
  have halign : ¬ ((0 : Nat) ≠ 0 ∧ !isAligned 0 4096) := fun h => h.1 rfl
  cases hfree : sp.vmaFree with
  | nil =>
    refine iff_of_true (fun allocs r sp' h => ?_) (fun v hv => by cases hv)
    rw [requestVma, if_neg halign, hfree] at h
    cases h
    refine ⟨fun out hout => absurd hout.symm (Option.some_ne_none out), fun _ hlong => ?_⟩
    obtain ⟨v, hv, -⟩ := hlong
    simp [hfree] at hv
  | cons v l =>
    have hs : search 0 (u64 ((0 : Nat) + size)) sp.vmaFree = some ⟨v, v.start, v.stop, l⟩ := by
      rw [hfree, search_zero]
    have hmem : v ∈ sp.vmaFree := by simp [hfree]
    constructor
    · intro hserved w hw
      cases hw
      obtain ⟨r, sp', hreq⟩ := requestVma_returns perm anon halign hs v
      obtain ⟨out, rfl, hstart, hstop, -⟩ := requestVma_cut hreq halign hs
      obtain ⟨w, -, hcut⟩ := (hserved _ _ _ hreq).1 out rfl
      have hlen := hcut.length
      rw [hstart, hstop] at hlen
      exact hlen
    · intro hlen allocs r sp' hreq
      obtain ⟨out, rfl, hstart, hstop, hperm, hanon, hlo, hhi, hrest⟩ :=
        requestVma_cut hreq halign hs
      refine ⟨fun out' hout' => ?_, fun _ _ => Option.some_ne_none out⟩
      cases hout'
      refine ⟨v, hmem, ⟨?_, ?_, ?_, fun h => absurd rfl h, hperm, hanon, hrest⟩⟩
      · rw [hstart]
      · rw [hstop]
      · rw [hstart, hstop]
        exact hlen v rfl

theorem served_base_iff (sp : VSpace) (size perm : Nat) (anon : Int) (hbase : base ≠ 0)
    (haligned : isAligned base 4096 = true) :
    Served sp base size perm anon ↔
      ∀ v, sp.vmaFree.find? (covers base (u64 (base + size))) = some v →
        base + size < 2 ^ 64 := by
  have halign : ¬ (base ≠ 0 ∧ !isAligned base 4096) := fun h => by simp [haligned] at h
  have hfound := search_base hbase (u64 (base + size)) sp.vmaFree
  cases hs : search base (u64 (base + size)) sp.vmaFree with
  | none =>
    simp only [hs] at hfound
    refine iff_of_true (fun allocs r sp' h => ?_) (fun v hv => by simp [hfound] at hv)
    rw [requestVma, if_neg halign] at h
    simp only [hs] at h
    cases h
    exact ⟨fun out hout => absurd hout.symm (Option.some_ne_none out), fun h => absurd h hbase⟩
  | some f =>
    simp only [hs] at hfound
    obtain ⟨hfind, hnb, hne, pre, post, hfree, -⟩ := hfound
    constructor
    · intro hserved v _
      obtain ⟨r, sp', hreq⟩ := requestVma_returns perm anon halign hs f.out
      obtain ⟨out, rfl, hstart, hstop, -⟩ := requestVma_cut hreq halign hs
      obtain ⟨w, -, hcut⟩ := (hserved _ _ _ hreq).1 out rfl
      have hlen := hcut.length
      rw [hstart, hstop, hnb, hne] at hlen
      unfold u64 at hlen
      omega
    · intro hlt allocs r sp' hreq
      have hend : u64 ((base : Int) + size) = base + size := by
        have := hlt f.out hfind
        unfold u64
        omega
      obtain ⟨out, rfl, hstart, hstop, hperm, hanon, hlo, hhi, hrest⟩ :=
        requestVma_cut hreq halign hs
      refine ⟨fun out' hout' => ?_, fun h => absurd h hbase⟩
      cases hout'
      refine ⟨f.out, by simp [hfree], ⟨by omega, by omega, ?_, fun _ => by omega, hperm, hanon,
        hrest⟩⟩
      rw [hstart, hstop, hnb, hne, hend]

/-- **The region a request returns**, for every free list and every base that is aligned or
zero: it is what was asked for, and the rest stays free, exactly for the requests of
`Servable`. Without a base the loop takes the first region whole, whatever the size. A request
that returns nothing at all goes through a null pointer: `halloc` has no memory for a region
that the split needs. -/
theorem request_vma_served_iff (sp : VSpace) (base size : BitVec 64) (perm : Nat) (anon : Int)
    (haligned : isAligned base.toNat 4096 = true) :
    (Served sp base.toNat size.toNat perm anon ↔ Servable sp base.toNat size.toNat) ∧
      ∀ allocs e, requestVma sp base.toNat size.toNat perm anon allocs = .error e ↔
        e = .nullDeref ∧
          ∃ f, search base.toNat (u64 (base.toNat + size.toNat)) sp.vmaFree = some f ∧
            (allocs.takeWhile Option.isSome).length < f.pieces := by
  have halign : ¬ (base.toNat ≠ 0 ∧ !isAligned base.toNat 4096) := fun h => by
    simp [haligned] at h
  refine ⟨?_, requestVma_error_iff sp size.toNat perm anon halign⟩
  unfold Servable
  by_cases hbase : base.toNat = 0
  · rw [if_pos hbase, hbase]
    exact served_zero_iff sp size.toNat perm anon
  · rw [if_neg hbase]
    exact served_base_iff sp size.toNat perm anon hbase haligned

theorem request_vma_served_first_page :
    isAligned (0x3ec0000000#64).toNat 4096 = true ∧
      Served vspaceInit (0x3ec0000000#64).toNat (4096#64).toNat 3 1 := by
  have haligned : isAligned (0x3ec0000000#64).toNat 4096 = true := by decide
  refine ⟨haligned, (request_vma_served_iff vspaceInit _ _ 3 1 haligned).1.2 ?_⟩
  intro v _
  decide

/-- A request for one page without a base gets the whole area. -/
theorem request_vma_takes_all :
    requestVma vspaceInit 0 4096 3 1 [] =
        .ok (some ⟨processMmapBottom, processMmapTop, 3, 1⟩,
          ⟨[], [⟨processMmapBottom, processMmapTop, 3, 1⟩]⟩) ∧
      ¬ Served vspaceInit 0 4096 3 1 := by
  refine ⟨rfl, fun hserved => ?_⟩
  have hlen := (served_zero_iff vspaceInit 4096 3 1).1 hserved _ rfl
  revert hlen
  decide

end SpringOs.Vmm
