import SpringOs.ExecLoad

/-!
Which files `exec` loads right.

* `mapRegions_returns`, `setupStack_returns`: behind the segments `exec` cannot fail, with tables
  enough;
* `argsAside_of_fit`: arguments that fit in the stack do not reach the segments;
* **`exec_image_right`**: when it returns 0, the images that come out right.
-/

namespace SpringOs.Exec
open Kernel Lib.Word Lib.Bytes Lib.Machine Lib.Ranges PageTable Ramdisk

/-! ## The regions and the stack -/

def tablesFor (size : Nat) : Nat := size / 2097152 + 4

section returns

variable {root : Nat} {st : ExecState}

theorem mapBlock_returns (st : ExecState) (va size : Nat) {pa : Nat} (hst : Tables root st.pt)
    (hflat : Flat root st.pt.mem) (hpos : 0 < size) (hva : va % 4096 = 0) (hpage : pa % 4096 = 0)
    (hsize : size % 4096 = 0) (huser : va + size ≤ 281474976710656) (hlow : pa < 281474976710656)
    (hgiga : va % pudSize + size ≤ pudSize) (hun : Unmapped root st.pt (vpn va) (size / 4096))
    (href : st.pt.refused = false) (hfree : tablesFor size < st.pt.free.length) :
    ∃ st', mapBlock root va (ptov pa) size st = .ok (0, st') ∧ st'.answers = st.answers ∧
      Grown root [] [⟨vpn va, size / 4096⟩] st.pt st'.pt ∧
      st.pt.free.length ≤ st'.pt.free.length + tablesFor size := by
  have hacc := accepted_of_pages hpos hva hpage hsize huser hlow
  obtain ⟨pt, hmap, hused⟩ := pagetableMap_returns hst hflat hacc hgiga
    (show vmRw.has vmHuge1G = false by decide) hun href hfree
  have hrun : mapBlock root va (ptov pa) size st = .ok (0, { st with pt := pt }) := by
    rw [mapBlock, vtop_ptov (by omega), hmap]
    rfl
  obtain ⟨hans, -, hrange⟩ := mapBlock_range hrun hst hflat (by omega)
  exact ⟨_, hrun, hans, hrange.grown, hused⟩

def regions : List Extent :=
  [⟨vpn stackBase, stackSize / 4096⟩, ⟨vpn sysProcHeapBase, sysProcHeapSize / 4096⟩,
    ⟨vpn sysProcRamdiskBase, ramdiskSize / 4096⟩]

def regionTables : Nat := 28

theorem mapRegions_returns {stack heap : Nat} {answers : List (Option Nat)}
    (hst : Tables root st.pt) (hflat : Flat root st.pt.mem)
    (hans : st.answers = some stack :: some heap :: answers) (hstack : stack % 4096 = 0)
    (hheap : heap % 4096 = 0) (hstack' : stack < 281474976710656)
    (hheap' : heap < 281474976710656) (hun : ∀ e ∈ regions, Unmapped root st.pt e.pos e.len)
    (href : st.pt.refused = false) (hfree : regionTables < st.pt.free.length) :
    ∃ st', mapRegions root st = .ok (0, st') := by
  have htables : tablesFor stackSize = 4 ∧ tablesFor sysProcHeapSize = 4 ∧
      tablesFor ramdiskSize = 20 ∧ regionTables = 28 := by decide
  obtain ⟨ht₁, ht₂, ht₃, ht⟩ := htables
  obtain ⟨st₁, hrun₁, hans₁, hg₁, hused₁⟩ := mapBlock_returns
    { st with answers := some heap :: answers, requests := st.requests ++ [stackSize] }
    stackBase stackSize hst hflat (by decide)
    (by decide) hstack (by decide) (by decide) hstack' (by decide)
    (hun _ List.mem_cons_self) href (by dsimp only; omega)
  have hun₂ := hg₁.unmapped (hun ⟨vpn sysProcHeapBase, sysProcHeapSize / 4096⟩
    (List.mem_cons_of_mem _ List.mem_cons_self)) (by decide)
  have hun₃ := hg₁.unmapped (hun ⟨vpn sysProcRamdiskBase, ramdiskSize / 4096⟩
    (List.mem_cons_of_mem _ (List.mem_cons_of_mem _ List.mem_cons_self))) (by decide)
  obtain ⟨st₂, hrun₂, -, hg₂, hused₂⟩ := mapBlock_returns
    { st₁ with answers := answers, requests := st₁.requests ++ [sysProcHeapSize] }
    sysProcHeapBase sysProcHeapSize hg₁.tables hg₁.flat (by decide) (by decide) hheap (by decide)
    (by decide) hheap' (by decide) hun₂ (hg₁.refused.trans href) (by dsimp only at *; omega)
  obtain ⟨st₃, hrun₃, -, -, -⟩ := mapBlock_returns st₂ sysProcRamdiskBase ramdiskSize
    hg₂.tables hg₂.flat (by decide) (by decide) (show ramdiskBase % 4096 = 0 by decide)
    (by decide) (by decide) (by decide) (by decide) (hg₂.unmapped hun₃ (by decide))
    (hg₂.refused.trans (hg₁.refused.trans href)) (by dsimp only at *; omega)
  refine ⟨st₃, ?_⟩
  unfold mapRegions
  rw [kalloc_some hans]
  change (mapBlock root stackBase (ptov stack) stackSize _ >>= _) = _
  rw [hrun₁]
  change (mapBlock root sysProcHeapBase (kalloc st₁ sysProcHeapSize).1 sysProcHeapSize
    (kalloc st₁ sysProcHeapSize).2 >>= _) = _
  rw [kalloc_some hans₁, hrun₂]
  exact hrun₃

theorem pushArgs_returns (origin : Nat) {argv : List Arg} {va : Nat} {argvp : List Nat}
    (h : argvp.length + argv.length ≤ maxArg) : ∃ x, pushArgs origin argv va argvp st = .ok x := by
  induction argv generalizing va argvp st with
  | nil => exact ⟨_, if_pos h⟩
  | cons arg rest ih =>
    rw [List.length_cons] at h
    rw [pushArgs, if_pos (by omega)]
    apply ih
    rw [List.length_append, List.length_singleton]
    omega

theorem setupStack_returns {pa entry : Nat} {argv : List Arg} (hst : Tables root st.pt)
    (hflat : Flat root st.pt.mem) (hstack : translate st.pt.mem root stackBase = some pa)
    (hlow : pa < 68719476736) (hargc : argv.length ≤ maxArg) :
    ∃ st', setupStack root entry argv st = .ok (0, st') := by
  have hpush : ∃ x, pushArgs (ptov (pa + stackSize)) argv (ptov (pa + stackSize)) [] st = .ok x :=
    pushArgs_returns _ (by simpa using hargc)
  obtain ⟨x, hx⟩ := hpush
  unfold setupStack
  rw [pgtblWalk_of_translate hst hflat hstack hlow]
  change ∃ st', (pushArgs (ptov (pa + stackSize)) argv (ptov (pa + stackSize)) [] st >>= _) = _
  rw [hx]
  exact ⟨_, rfl⟩

end returns

/-! ## The images that come out right -/

section image

variable {disk : Nat → Byte} {inode : Nat}

theorem loadHdrs_far (hfile : fSize disk inode < 2 ^ 31)
    (hphoff : 2 ^ 31 ≤ (elfHdr (fileByte disk inode)).phoff) : loadHdrs disk inode = [] := by
  have hnone : ∀ n, progHdrs disk inode n (elfHdr (fileByte disk inode)).phoff = [] := by
    intro n
    cases n with
    | zero => rfl
    | succ n => exact if_neg (by omega)
  rw [loadHdrs, hnone]
  rfl

theorem mem_zip_answers {loaded : List (ProgHdr × Nat)} {answers : List (Option Nat)}
    {ph : ProgHdr} {pa : Nat} :
    (ph, some pa) ∈ (loaded.map Prod.fst).zip (loaded.map (fun x => some x.2) ++ answers) ↔
      (ph, pa) ∈ loaded := by
  induction loaded with
  | nil => simp
  | cons x loaded ih =>
    rw [List.map_cons, List.map_cons, List.cons_append, List.zip_cons_cons, List.mem_cons,
      List.mem_cons, ih]
    simp [Prod.ext_iff]

/-- Arguments that fit in the stack block are aside, unless a segment or a table begins right
behind it. -/
theorem argsAside_of_fit {argv : List Arg} {root pa : Nat} {st st₁ : ExecState} {ret : Int}
    (hfile : fSize disk inode < 2 ^ 31) (hphoff : (elfHdr (fileByte disk inode)).phoff < 2 ^ 31)
    (hst : Tables root st.pt) (hflat : Flat root st.pt.mem)
    (hsupply : Supply root st.pt (granted st.answers
      ((loadHdrs disk inode).map mapSize ++ [stackSize])))
    (hfit : ArgsFit argv)
    (hload : loadSegments disk inode root (elfHdr (fileByte disk inode)).phnum
      (i32 (elfHdr (fileByte disk inode)).phoff) st = .ok (ret, st₁)) (hret : 0 ≤ ret)
    (hpa : st₁.answers.head? = some (some pa))
    (hsegments : ∀ b ∈ granted st.answers ((loadHdrs disk inode).map mapSize),
      b.pos ≠ pa + stackSize)
    (htables : ∀ {r q p}, IsTable st₁.pt.mem root r q p → p ≠ pa + stackSize) :
    ArgsAside disk inode root argv st := by
  have hload' := hload
  rw [i32_of_lt (by omega) (by omega)] at hload'
  obtain ⟨loaded, hfst, hans, -, hgrown, -⟩ :=
    loadSegments_loaded hfile hphoff hst hflat hsupply hload' hret
  have hfst : loaded.map Prod.fst = loadHdrs disk inode := hfst
  have hblocks := granted_append loaded st₁.answers []
  have hnone : granted st₁.answers [] = [] := by
    unfold granted
    split <;> first | rfl | contradiction
  rw [List.append_nil, hnone, List.append_nil, hfst, ← hans] at hblocks
  obtain ⟨answers, hanswers⟩ := List.head?_eq_some_iff.1 hpa
  rw [← hfst, hans, granted_append, hanswers, granted_singleton] at hsupply
  -- what is apart from the block, and does not begin behind it, is apart from the arguments
  have hrest : ∀ b : Extent, b.Apart ⟨pa, stackSize⟩ → b.pos ≠ pa + stackSize →
      b.Apart (argsArea argv pa) := by
    intro b hapart hne
    unfold ArgsFit at hfit
    unfold argsArea
    unfold Extent.Apart at *
    dsimp only at *
    omega
  refine ⟨ret, st₁, pa, hload, hpa, Nat.le_add_left_of_le hfit, fun b hb => ?_, fun hp => ?_⟩
  · refine hrest b ?_ (hsegments b hb)
    rw [hblocks] at hb
    exact (List.pairwise_append.1 hsupply.apart).2.2 b hb _ (List.mem_singleton_self _)
  · have hclear := hgrown.clear (hsupply.clear ⟨pa, stackSize⟩
      (List.mem_append_right _ (List.mem_singleton_self _)))
    exact hrest (page _) (hclear.tables hp) (htables hp)

end image

/-- Each loadable segment lies in the file, at addresses of the process, and its block was zero
where the segment should be. -/
def Loads (disk : Nat → Byte) (inode : Nat) (st : ExecState) : Prop :=
  ∀ ph pa, (ph, some pa) ∈ (loadHdrs disk inode).zip st.answers →
    Loadable disk inode st.pt.mem ph pa

/-- With the arguments aside the image is right exactly if the segments load. -/
theorem image_iff_loads {disk : Nat → Byte} {path : List Byte} {argv : List Arg}
    {inode root : Nat} {st st' : ExecState}
    (hopen : ramdiskOpen (some disk) (cstr path) = .ok inode)
    (hfile : fSize disk inode ≤ ramdiskSize) (hst : Tables root st.pt)
    (hflat : Flat root st.pt.mem)
    (hsupply : Supply root st.pt (granted st.answers
      ((loadHdrs disk inode).map mapSize ++ [stackSize])))
    (hargs : ArgsAside disk inode root argv st)
    (hrun : exec (some disk) path (some argv) root st = .ok (0, st')) :
    ImageRight disk inode root st'.pt.mem ↔ Loads disk inode st := by
  have hsmall : fSize disk inode < 2 ^ 31 := hfile.trans_lt (by decide)
  have hmagic := (exec_steps hopen hrun).1
  by_cases hphoff : (elfHdr (fileByte disk inode)).phoff < 2 ^ 31
  · obtain ⟨loaded, answers, hfst, hans, -, hall⟩ :=
      exec_loaded hopen hsmall hphoff hst hflat hsupply hargs hrun
    have hsegments : ImageRight disk inode root st'.pt.mem ↔
        ∀ x ∈ loaded, SegmentRight disk inode root st'.pt.mem x.1 := by
      constructor
      · intro h x hx
        exact h.segments _ (hfst ▸ List.mem_map_of_mem hx)
      · intro h
        refine ⟨hmagic, fun ph hph => ?_⟩
        rw [← hfst] at hph
        obtain ⟨x, hx, rfl⟩ := List.mem_map.1 hph
        exact h x hx
    rw [hsegments, Loads, ← hfst, hans]
    constructor
    · intro h ph pa hmem
      have hx := mem_zip_answers.1 hmem
      exact (hall _ hx).right_iff.1 (h _ hx)
    · intro h x hx
      exact (hall x hx).right_iff.2 (h x.1 x.2 (mem_zip_answers.2 hx))
  · have hnone := loadHdrs_far hsmall (Nat.le_of_not_lt hphoff)
    apply iff_of_true
    · refine ⟨hmagic, fun ph hph => ?_⟩
      rw [hnone] at hph
      cases hph
    · intro ph pa hmem
      rw [hnone] at hmem
      cases hmem

/-- **`exec`**, for every file of the ramdisk, every process whose space has no blocks and
every list of arguments, with blocks from the allocators: when it returns 0 the image is right if
the segments load and the arguments go aside of them and of their tables. With such arguments it
is right only if the segments load. -/
theorem exec_image_right {disk : Nat → Byte} {path : List Byte} {argv : List Arg}
    {inode root : Nat} {st st' : ExecState}
    (hopen : ramdiskOpen (some disk) (cstr path) = .ok inode)
    (hfile : fSize disk inode ≤ ramdiskSize) (hst : Tables root st.pt)
    (hflat : Flat root st.pt.mem)
    (hsupply : Supply root st.pt (granted st.answers
      ((loadHdrs disk inode).map mapSize ++ [stackSize])))
    (hrun : exec (some disk) path (some argv) root st = .ok (0, st')) :
    (ArgsAside disk inode root argv st ∧ Loads disk inode st →
      ImageRight disk inode root st'.pt.mem) ∧
    (ImageRight disk inode root st'.pt.mem →
      Loads disk inode st ∨ ¬ ArgsAside disk inode root argv st) := by
  constructor
  · rintro ⟨hargs, hloads⟩
    exact (image_iff_loads hopen hfile hst hflat hsupply hargs hrun).2 hloads
  · intro hright
    by_cases hargs : ArgsAside disk inode root argv st
    · exact .inl ((image_iff_loads hopen hfile hst hflat hsupply hargs hrun).1 hright)
    · exact .inr hargs

/-- A ramdisk with one file `a`, a program with one segment at 4 MiB: four bytes of the file
from `off` on, in eight bytes of memory. -/
def tinyDisk (off : Byte) (i : Nat) : Byte :=
  -- superblock and inode
  if i = 16 then 1 else if i = 24 then 64 else if i = 32 then 128
  else if i = 64 then 97 else if i = 104 then 120
  -- ELF header
  else if i = 128 then 0x7f else if i = 129 then 0x45 else if i = 130 then 0x4c
  else if i = 131 then 0x46 else if i = 160 then 64 else if i = 184 then 1
  -- program header
  else if i = 192 then 1 else if i = 200 then off else if i = 210 then 0x40
  else if i = 224 then 4 else if i = 232 then 8 else 0

/-- A process before `exec`, in memory that is all zero. -/
def tinyState : ExecState :=
  ⟨newSpace ((List.range 40).map fun i => 0x50000000 + 4096 * i),
    [some 0x51fff000, some 0x52000000, some 0x53000000], [], [], 0, 0, false⟩

def tinyHdr (off : Byte) : ProgHdr := ⟨1, off.toNat, 0x400000, 4, 8⟩

section tiny

theorem newSpace_look (root m : Nat) (free : List Nat) :
    look (newSpace free).mem root m = (3, 0) :=
  Lib.Radix.walk_of_none (.inr child_zero)

theorem newSpace_clear {root : Nat} {free : List Nat} {b : Extent} (hroot : (page root).Apart b)
    (hfree : ∀ p ∈ free, (page p).Apart b) : Clear root (newSpace free) b where
  tables hp := by
    obtain ⟨-, -, rfl⟩ := newSpace_isTable hp
    exact hroot
  free := hfree

theorem tinyState_tables : Tables 0x4fff0000 tinyState.pt :=
  newSpace_tables (by decide) (by decide +kernel) (by decide +kernel) (by decide +kernel)

theorem tinyState_flat : Flat 0x4fff0000 tinyState.pt.mem :=
  fun _ _ => .inl rfl

theorem tinyState_zero (a : Nat) : byteAt tinyState.pt.mem a = 0 := by
  change getByte 0 (a % 8) = 0
  apply BitVec.eq_of_getLsbD_eq
  intro i _
  simp [getByte]

theorem tinyState_free : ∀ p ∈ tinyState.pt.free, p + 4096 ≤ 0x51000000 := by decide +kernel

theorem tinyState_clear {b : Extent} (hlo : 0x51000000 ≤ b.pos) :
    Clear 0x4fff0000 tinyState.pt b := by
  apply newSpace_clear
  · exact .inl (Nat.le_trans (by decide) hlo)
  · exact fun p hp => .inl (Nat.le_trans (tinyState_free p hp) hlo)

theorem tinyState_tables_below {written mapped : List Extent} {pt : PtState}
    (hgrown : Grown 0x4fff0000 written mapped tinyState.pt pt) {r q p : Nat}
    (hp : IsTable pt.mem 0x4fff0000 r q p) : p + 4096 ≤ 0x51000000 := by
  rcases hgrown.new hp with hold | hnew
  · obtain ⟨-, -, rfl⟩ := newSpace_isTable hold
    decide
  · exact tinyState_free p hnew

theorem tinyHdr_size (off : Byte) : mapSize (tinyHdr off) = 4096 := by
  change alignUp (u64 ((8 : Nat) + ((0x400000 : Nat) - alignDown 0x400000 pageSize))) pageSize =
    4096
  decide +kernel

/-- What is found by evaluation. -/
structure Tiny (off : Byte) : Prop where
  opens : ramdiskOpen (some (tinyDisk off)) (cstr [97]) = .ok 64
  size : fSize (tinyDisk off) 64 = 120
  magic : (elfHdr (fileByte (tinyDisk off) 64)).magic = elfMagic
  phoff : (elfHdr (fileByte (tinyDisk off) 64)).phoff = 64
  hdrs : loadHdrs (tinyDisk off) 64 = [tinyHdr off]
  loads : (loadSegments (tinyDisk off) 64 0x4fff0000 (elfHdr (fileByte (tinyDisk off) 64)).phnum
      (i32 (elfHdr (fileByte (tinyDisk off) 64)).phoff) tinyState).toOption.map
    (fun x => (decide (0 ≤ x.1), x.2.pt.free.length, x.2.pt.refused)) = some (true, 37, false)

theorem tiny : Tiny 0 ∧ Tiny 200 :=
  ⟨⟨rfl, by decide +kernel, by decide +kernel, by decide +kernel, rfl, by decide +kernel⟩,
    ⟨rfl, by decide +kernel, by decide +kernel, by decide +kernel, rfl, by decide +kernel⟩⟩

variable {off : Byte}

theorem Tiny.supply (h : Tiny off) : Supply 0x4fff0000 tinyState.pt (granted tinyState.answers
    ((loadHdrs (tinyDisk off) 64).map mapSize ++ [stackSize])) := by
  have hblocks : granted tinyState.answers ((loadHdrs (tinyDisk off) 64).map mapSize ++
      [stackSize]) = [⟨0x51fff000, 4096⟩, ⟨0x52000000, 8192⟩] := by
    rw [h.hdrs]
    exact congrArg (fun size => [Extent.mk 0x51fff000 size, ⟨0x52000000, 8192⟩]) (tinyHdr_size off)
  rw [hblocks]
  refine ⟨by decide, ?_, by decide⟩
  intro b hb
  apply tinyState_clear
  revert b
  decide

theorem Tiny.loaded (h : Tiny off) : ∃ ret st₁ written,
    loadSegments (tinyDisk off) 64 0x4fff0000 (elfHdr (fileByte (tinyDisk off) 64)).phnum
      (i32 (elfHdr (fileByte (tinyDisk off) 64)).phoff) tinyState = .ok (ret, st₁) ∧ 0 ≤ ret ∧
    st₁.answers = [some 0x52000000, some 0x53000000] ∧
    Grown 0x4fff0000 written [span (tinyHdr off)] tinyState.pt st₁.pt ∧
    Placed 0x4fff0000 st₁.pt.mem (tinyHdr off) 0x51fff000 ∧
    st₁.pt.free.length = 37 ∧ st₁.pt.refused = false := by
  have hsize := h.size
  have hphoff := h.phoff
  obtain ⟨⟨ret, st₁⟩, hload, hend⟩ := Option.map_eq_some_iff.1 h.loads
  simp only [Prod.mk.injEq, decide_eq_true_eq] at hend
  obtain ⟨hret, hfree, hrefused⟩ := hend
  have hload := ok_of_toOption hload
  have hload' := hload
  rw [i32_of_lt (by omega) (by omega)] at hload'
  obtain ⟨loaded, hfst, hans, -, hgrown, hall⟩ := loadSegments_loaded (by omega) (by omega)
    tinyState_tables tinyState_flat h.supply hload' hret
  have hfst : loaded.map Prod.fst = [tinyHdr off] := hfst.trans h.hdrs
  obtain ⟨⟨ph, pa⟩, rfl⟩ : ∃ x, loaded = [x] := by
    rw [← List.length_eq_one_iff, ← List.length_map Prod.fst, hfst]
    rfl
  obtain rfl : ph = tinyHdr off := (List.cons.inj hfst).1
  obtain ⟨hpa, hrest⟩ := List.cons.inj hans
  obtain rfl : 0x51fff000 = pa := Option.some.inj hpa
  exact ⟨ret, st₁, _, hload, hret, hrest.symm, hgrown, (hall _ List.mem_cons_self).toPlaced,
    hfree, hrefused⟩

theorem Tiny.returns (h : Tiny off) (arg : Arg) : ∃ st',
    exec (some (tinyDisk off)) [97] (some [arg]) 0x4fff0000 tinyState = .ok (0, st') := by
  obtain ⟨ret, st₁, _, hload, hret, hrest, hgrown, -, hfree, hrefused⟩ := h.loaded
  have hun : ∀ e ∈ regions, Unmapped 0x4fff0000 st₁.pt e.pos e.len := by
    intro e he
    apply hgrown.unmapped fun _ _ _ _ => congrArg Prod.snd (newSpace_look ..)
    intro e' he'
    obtain rfl := List.mem_singleton.1 he'
    rw [span, tinyHdr_size off]
    change e.Apart ⟨vpn 0x400000, 4096 / 4096⟩
    revert e
    decide
  obtain ⟨st₂, hregions⟩ := mapRegions_returns hgrown.tables hgrown.flat hrest (by decide)
    (by decide) (by decide) (by decide) hun hrefused (by rw [hfree]; decide)
  obtain ⟨pa, _, hpa, -, -, hmid, hlead⟩ := mapRegions_grown hgrown.tables hgrown.flat
    (fun pa hpa => by rw [hrest] at hpa; cases hpa; decide) hregions
  rw [hrest] at hpa
  obtain rfl : 0x52000000 = pa := Option.some.inj (Option.some.inj hpa)
  have hsetup : ∃ st', setupStack 0x4fff0000 (elfHdr (fileByte (tinyDisk off) 64)).entry [arg] st₂ =
      .ok (0, st') :=
    setupStack_returns hmid.tables hmid.flat (hlead 0 (by decide)) (by decide)
      (show 1 ≤ maxArg by decide)
  obtain ⟨st', hsetup⟩ := hsetup
  have hsize := h.size
  have hread : (ramdiskRead (tinyDisk off) 64 elfHdrSize 0).1 = elfHdrSize := by
    rw [ramdiskRead_of_le (by rw [hsize]; decide) (by omega)]
  refine ⟨st', ?_⟩
  unfold exec
  rw [h.opens]
  dsimp only
  rw [if_neg (not_not.2 hread), if_neg (not_not.2 h.magic), hload]
  change (if ret < 0 then _ else mapRegions 0x4fff0000 st₁ >>= _) = _
  rw [if_neg (Int.not_lt.2 hret), hregions]
  exact hsetup

theorem Tiny.aside (h : Tiny off) :
    ArgsAside (tinyDisk off) 64 0x4fff0000 [⟨[97], 0⟩] tinyState := by
  have hsize := h.size
  have hphoff := h.phoff
  obtain ⟨ret, st₁, _, hload, hret, hrest, hgrown, -⟩ := h.loaded
  have hstack : st₁.answers.head? = some (some 0x52000000) := by
    rw [hrest]
    rfl
  refine argsAside_of_fit (by omega) (by omega) tinyState_tables tinyState_flat h.supply
    (by decide) hload hret hstack ?_ ?_
  · rw [h.hdrs]
    intro b hb
    have hblocks : granted tinyState.answers ([tinyHdr off].map mapSize) = [⟨0x51fff000, 4096⟩] :=
      congrArg (fun size => [Extent.mk 0x51fff000 size]) (tinyHdr_size off)
    rw [hblocks] at hb
    obtain rfl := List.mem_singleton.1 hb
    decide
  · intro r q p hp
    have := tinyState_tables_below hgrown hp
    have hbig : stackSize = 8192 := rfl
    omega

/-- One argument of 12280 characters reaches down to the eighth byte of the segment. -/
theorem Tiny.overwritten (h : Tiny off) {st' : ExecState} {arg : Arg}
    (hlen : arg.chars.length = 12280)
    (hrun : exec (some (tinyDisk off)) [97] (some [arg]) 0x4fff0000 tinyState = .ok (0, st')) :
    userByte st'.pt.mem 0x4fff0000 0x400007 = some ((arg.chars ++ [0, arg.next]).getD 0 0) := by
  obtain ⟨ret, st₁, _, hload, -, hrest, hgrown, hplaced, -⟩ := h.loaded
  obtain ⟨-, ret', st₁', st₂, hload', -, hregions, hsetup⟩ := exec_steps h.opens hrun
  cases hload.symm.trans hload'
  have hbig : stackSize = 8192 := rfl
  have hbytes : argBytes [arg] = 12281 := by rw [argBytes, hlen]; rfl
  have hsize : argsSize [arg] = 12432 := by rw [argsSize, hbytes]; rfl
  obtain ⟨pa, _, hpa, hpage, -, hmid, hlead⟩ := mapRegions_grown hgrown.tables hgrown.flat
    (fun pa hpa => by rw [hrest] at hpa; cases hpa; decide) hregions
  rw [hrest] at hpa
  obtain rfl : 0x52000000 = pa := Option.some.inj (Option.some.inj hpa)
  have hstack : translate st₂.pt.mem 0x4fff0000 stackBase = some 0x52000000 :=
    hlead 0 (by decide)
  -- the tables of the segment are out of reach
  have htranslate : translate st'.pt.mem 0x4fff0000 0x400007 = some 0x51fff007 := by
    obtain ⟨-, hframe⟩ := setupStack_frame hmid.tables hmid.flat hstack hpage (by decide)
      (by rw [hsize]; decide) hsetup
    have hfirst := hplaced.leads 7
      (by rw [tinyHdr_size off]; exact show 0x400000 % 4096 + 7 < 4096 by decide)
    dsimp only [tinyHdr] at hfirst
    refine translate_of_keep (fun {r q p i} hp hne => ?_) hfirst
    rw [hframe p, hmid.keep hp hne]
    have := tinyState_tables_below hgrown hp
    left
    change p + 4096 ≤ 0x52000000 + stackSize - argsSize [arg]
    rw [hsize]
    omega
  have hpage := setupStack_single (p := 0x51fff000) hmid.tables hmid.flat hstack (by decide)
    (by rw [hsize]; decide) (by rw [hlen]; decide) hsetup
  have hbyte : byteAt st'.pt.mem 0x51fff007 = byteAt (copy st₂.pt.mem 0x51fff007
      (fun i => (arg.chars ++ [0, arg.next]).getD i 0) (arg.chars.length + 2)) 0x51fff007 := by
    rw [hlen] at hpage ⊢
    exact congrArg (fun words => getByte (words (0x51fff007 % 4096 / 8)) (0x51fff007 % 8)) hpage
  rw [userByte, if_pos (by decide), htranslate, Option.map_some, hbyte, byteAt_copy,
    if_pos (by omega), Nat.sub_self]

theorem tinyState_loads : Loads (tinyDisk 0) 64 tinyState := by
  intro ph pa hmem
  rw [tiny.1.hdrs] at hmem
  obtain ⟨rfl, hpa⟩ := Prod.mk.inj (List.mem_singleton.1 hmem)
  obtain rfl := Option.some.inj hpa
  exact ⟨.inr (by decide +kernel), .inr (by decide), fun k _ _ => tinyState_zero _⟩

end tiny

theorem exec_image_right_zero_memory : ∃ st',
    exec (some (tinyDisk 0)) [97] (some [⟨[97], 0⟩]) 0x4fff0000 tinyState = .ok (0, st') ∧
      ImageRight (tinyDisk 0) 64 0x4fff0000 st'.pt.mem := by
  obtain ⟨st', hrun⟩ := tiny.1.returns ⟨[97], 0⟩
  have hsize : fSize (tinyDisk 0) 64 ≤ ramdiskSize := by
    rw [tiny.1.size]
    decide
  exact ⟨st', hrun, (exec_image_right tiny.1.opens hsize tinyState_tables tinyState_flat
    tiny.1.supply hrun).1 ⟨tiny.1.aside, tinyState_loads⟩⟩

/-- The segment starts behind the end of the file. `ramdisk_read` reports that by 0, not by
a negative number, and `exec` returns 0 with nothing loaded. Or all segments load, and a string
longer than the stack goes on into the block below it, where the segment is. -/
theorem exec_image_wrong :
    (∃ st', exec (some (tinyDisk 200)) [97] (some [⟨[97], 0⟩]) 0x4fff0000 tinyState =
        .ok (0, st') ∧ ¬ ImageRight (tinyDisk 200) 64 0x4fff0000 st'.pt.mem) ∧
    Loads (tinyDisk 0) 64 tinyState ∧
    ∃ st', exec (some (tinyDisk 0)) [97] (some [⟨List.replicate 12280 98, 0⟩]) 0x4fff0000
        tinyState = .ok (0, st') ∧ ¬ ImageRight (tinyDisk 0) 64 0x4fff0000 st'.pt.mem := by
  refine ⟨?_, tinyState_loads, ?_⟩
  · obtain ⟨st', hrun⟩ := tiny.2.returns ⟨[97], 0⟩
    refine ⟨st', hrun, fun hright => ?_⟩
    have hmem : tinyHdr 200 ∈ loadHdrs (tinyDisk 200) 64 := tiny.2.hdrs ▸ List.mem_singleton_self _
    have hout := ((hright.segments _ hmem).file 0 (by decide)).1
    exact absurd hout (by decide +kernel)
  · obtain ⟨st', hrun⟩ := tiny.1.returns ⟨List.replicate 12280 98, 0⟩
    refine ⟨st', hrun, fun hright => ?_⟩
    have hmem : tinyHdr 0 ∈ loadHdrs (tinyDisk 0) 64 := tiny.1.hdrs ▸ List.mem_singleton_self _
    have hzero := (hright.segments _ hmem).zero 7 (by decide) (by decide)
    have hbyte := tiny.1.overwritten (List.length_replicate ..) hrun
    have hchar : (98 : Byte) = 0 := Option.some.inj (hbyte.symm.trans hzero)
    exact absurd hchar (by decide)

end SpringOs.Exec
