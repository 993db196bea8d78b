import SpringOs.Vmm

/-!
The processes of the root service: `struct proc`, and `vspace_init`, `find_vma`, `roots_mmap`
and `roots_brk` of `vmm.c`.

What `halloc_zero` and the system calls answer is part of a call. The kernel has no `map` call
yet, so nothing is known of its answer; `kobject_create` refuses a pma that is empty or not a
number of pages.

* `messages_inside`: messages of a process keep the break in its area, and do with the regions
  what requests do;
* **`findVma`**: the lookup in `vma_used`; only requests put a region there (`step_used`);
* `outside_area`: the last address of an ELF image is not in the mmap area;
* **`find_vma_right_iff`**: when the lookup is right. The region of the ELF image is created and
  never linked, so as long as requests do not wrap around it is never right.
-/

namespace SpringOs.RootProc
open Kernel Lib.Word Lib.Machine Vmm

/-! ## `vspace_init` -/

structure Proc where
  handle : Int
  space : VSpace
  brkStart : Nat
  brkEnd : Nat
  brkCur : Nat

def processBrkTop : Nat := 0x100000000

/-- `KOBJ_RIGHT_RWX`. -/
def kobjRightRwx : Nat := 7

/-- Whether `halloc_zero` has memory for the two regions, and what the kernel answers:
`create_pma` by the size, `sys_map` by its arguments. -/
structure SpaceEnv where
  mmapVma : Bool
  elfVma : Bool
  createPma : Nat → Int
  sysMap : Int → Int → Nat → Nat → Nat → Int
  refuses : ∀ size, size = 0 ∨ size % 4096 ≠ 0 → createPma size ≤ 0

/-- The lists and the brk area are set up; the region of the ELF image is filled in and mapped,
and on no list. -/
def vspaceInit (env : SpaceEnv) (proc : Proc) (elfStart elfSize : Nat) : Int × Proc :=
  if !env.mmapVma then (-1, { proc with space := ⟨[], []⟩ })
  else
    let brkStart := alignUp (u64 (elfStart + elfSize)) 4096
    let proc : Proc := ⟨proc.handle, Vmm.vspaceInit, brkStart, processBrkTop, brkStart⟩
    if proc.brkStart > proc.brkEnd then (-1, proc)
    else if !env.elfVma then (-1, proc)
    else
      let pmaHandle := env.createPma elfSize
      if pmaHandle ≤ 0 then (-1, proc)
      else (env.sysMap proc.handle pmaHandle elfStart elfSize kobjRightRwx, proc)

variable {p proc p' : Proc} {elfStart elfSize : Nat} {ret : Int} {env : SpaceEnv}
  {allocs : List (Option Vma)} {r : Request}

theorem vspaceInit_ok (h : vspaceInit env proc elfStart elfSize = (ret, p)) (hret : 0 ≤ ret) :
    p.space = Vmm.vspaceInit ∧ p.handle = proc.handle ∧
      p.brkStart = alignUp (u64 (elfStart + elfSize)) 4096 ∧ p.brkStart ≤ processBrkTop ∧
      p.brkCur = p.brkStart ∧ p.brkEnd = processBrkTop ∧ 0 < elfSize ∧ elfSize % 4096 = 0 := by
  unfold vspaceInit at h
  split at h
  · cases h
    omega
  · simp only at h
    split at h
    · cases h
      omega
    · rename_i hbrk
      split at h
      · cases h
        omega
      · split at h
        · cases h
          omega
        · rename_i hpma
          cases h
          have hsize : ¬ (elfSize = 0 ∨ elfSize % 4096 ≠ 0) := fun hbad =>
            hpma (env.refuses elfSize hbad)
          exact ⟨rfl, rfl, rfl, Nat.le_of_not_lt hbrk, rfl, rfl, by omega, by omega⟩

/-! ## `find_vma`, `roots_mmap`, `roots_brk` -/

def findVma (p : Proc) (addr : Nat) : Option Vma := p.space.vmaUsed.find? (·.has addr)

def protRead : Nat := 1
def protWrite : Nat := 2
def protExec : Nat := 4

/-- The rights for `prot`, which have the same bits. -/
def mmapPerm (prot : Nat) : Nat :=
  (if prot &&& protExec ≠ 0 then 4 else 0) ||| (if prot &&& protWrite ≠ 0 then 2 else 0) |||
    (if prot &&& protRead ≠ 0 then 1 else 0)

/-- `roots_mmap`, whose reply is not sent yet. -/
def rootsMmap (p : Proc) (addr len prot : Nat) (fd : Int) (allocs : List (Option Vma)) :
    Except Fault (Int × Proc) :=
  if addr ≠ 0 ∨ fd ≠ -1 then .ok (0, p)
  else do
    let (_, sp) ← requestVma p.space 0 (alignUp len 4096) (mmapPerm prot) 1 allocs
    .ok (0, { p with space := sp })

/-- `roots_brk`, whose reply is not sent yet. -/
def rootsBrk (p : Proc) (addr : Nat) : Int × Proc :=
  if addr = 0 then (0, p)
  else if addr < p.brkStart ∨ addr ≥ p.brkEnd then (0, p)
  else (0, { p with brkCur := addr })

/-! ## Messages -/

inductive Message
  | mmap (addr len prot : Nat) (fd : Int) (allocs : List (Option Vma))
  | brk (addr : Nat)

def serve (p : Proc) : Message → Option Proc
  | .mmap addr len prot fd allocs => (rootsMmap p addr len prot fd allocs).toOption.map Prod.snd
  | .brk addr => some (rootsBrk p addr).2

/-- The break is in its area, and requests lead to the regions. -/
structure Inside (p : Proc) : Prop where
  lower : p.brkStart ≤ p.brkCur
  upper : p.brkCur ≤ p.brkEnd
  space : Steps Vmm.step (fun _ _ => True) Vmm.vspaceInit p.space

theorem rootsMmap_inside {addr len prot : Nat} {fd : Int} (h : Inside p)
    (hmmap : rootsMmap p addr len prot fd allocs = .ok (ret, p')) : Inside p' := by
  unfold rootsMmap at hmmap
  split_ifs at hmmap
  · cases hmmap
    exact h
  · obtain ⟨⟨r, sp⟩, hreq, hret⟩ := ok_of_bind hmmap
    cases hret
    let request : Request := ⟨0, BitVec.ofNat 64 (alignUp len 4096), mmapPerm prot, 1, allocs⟩
    have hsize : request.size.toNat = alignUp len 4096 := Nat.mod_eq_of_lt (BitVec.isLt _)
    have hstep : Vmm.step p.space request = some sp := by
      rw [Vmm.step, hsize]
      change (requestVma p.space 0 (alignUp len 4096) (mmapPerm prot) 1 allocs).toOption.map _ = _
      rw [hreq]
      rfl
    exact ⟨h.lower, h.upper, h.space.tail request trivial hstep⟩

theorem rootsBrk_inside (h : Inside p) (addr : Nat) : Inside (rootsBrk p addr).2 := by
  unfold rootsBrk
  split_ifs with hzero hout
  · exact h
  · exact h
  · exact ⟨by simp only; omega, by simp only; omega, h.space⟩

/-- **The messages of a process** that `vspace_init` has set up, whatever they ask for. -/
theorem messages_inside (hinit : vspaceInit env proc elfStart elfSize = (ret, p)) (hret : 0 ≤ ret)
    (hrun : Steps serve (fun _ _ => True) p p') : Inside p' := by
  obtain ⟨hspace, -, -, htop, hcur, hend, -⟩ := vspaceInit_ok hinit hret
  refine hrun.invariant ⟨hcur.ge, by omega, hspace ▸ .refl⟩ ?_
  intro q message q' hq _ hserve
  cases message with
  | mmap addr len prot fd allocs =>
    obtain ⟨⟨r, q1⟩, hmmap, rfl⟩ := Option.map_eq_some_iff.1 hserve
    exact rootsMmap_inside hq (ok_of_toOption hmmap)
  | brk addr =>
    cases hserve
    exact rootsBrk_inside hq addr

/-! ## Requests -/

/-- A process and the regions that requests have returned to it. -/
structure Client where
  proc : Proc
  handed : List Vma

def step (s : Client) (r : Request) : Option Client :=
  (requestVma s.proc.space r.base.toNat r.size.toNat r.perm r.anon r.allocs).toOption.map
    fun res => ⟨{ s.proc with space := res.2 }, res.1.toList ++ s.handed⟩

/-- A request puts what it returns on the list of used regions, and nothing else. -/
theorem requestVma_used {sp sp' : VSpace} {base size perm : Nat} {anon : Int} {r : Option Vma}
    (h : requestVma sp base size perm anon allocs = .ok (r, sp')) :
    sp'.vmaUsed = r.toList ++ sp.vmaUsed := by
  rcases requestVma_cases h with ⟨rfl, rfl⟩ | ⟨f, out, sp1, -, -, hsplit, rfl, rfl⟩
  · rfl
  · exact congrArg (List.cons _) (splitVma_has hsplit).2.1

theorem step_used {s s' : Client} (hstep : step s r = some s')
    (h : s.proc.space.vmaUsed = s.handed) :
    s'.proc.space.vmaUsed = s'.handed := by
  obtain ⟨res, hreq, rfl⟩ := Option.map_eq_some_iff.1 hstep
  rw [requestVma_used (ok_of_toOption hreq), h]

/-- The space of the process makes the step of `Vmm.step`. -/
theorem step_space {s s' : Client} (hstep : step s r = some s') :
    Vmm.step s.proc.space r = some s'.proc.space := by
  obtain ⟨res, hreq, rfl⟩ := Option.map_eq_some_iff.1 hstep
  exact Option.map_eq_some_iff.2 ⟨res, hreq, rfl⟩

/-! ## The lookup -/

def InElf (elfStart elfSize : Nat) (addr : BitVec 64) : Prop :=
  u64 (addr.toNat - elfStart) < elfSize

def Known (elfStart elfSize : Nat) (s : Client) (addr : BitVec 64) : Prop :=
  InElf elfStart elfSize addr ∨ ∃ v ∈ s.handed, v.has addr.toNat = true

/-- `find_vma` returns the only region with the address, for the known addresses alone. -/
def FindRight (elfStart elfSize : Nat) (s : Client) : Prop :=
  ∀ addr : BitVec 64,
    (Known elfStart elfSize s addr →
      ∃ v, findVma s.proc addr.toNat = some v ∧ v.has addr.toNat = true ∧
        s.proc.space.vmaUsed.countP (·.has addr.toNat) = 1) ∧
    (¬ Known elfStart elfSize s addr → findVma s.proc addr.toNat = none)

/-- The requests have handed out every address of the ELF image, and no address twice. -/
def HandedOnce (elfStart elfSize : Nat) (s : Client) : Prop :=
  ∀ addr : BitVec 64,
    (InElf elfStart elfSize addr → 0 < s.handed.countP (·.has addr.toNat)) ∧
      s.handed.countP (·.has addr.toNat) ≤ 1

theorem findVma_isSome_iff (p : Proc) (addr : Nat) :
    (∃ v, findVma p addr = some v ∧ v.has addr = true) ↔
      0 < p.space.vmaUsed.countP (·.has addr) := by
  rw [List.countP_pos_iff]
  constructor
  · rintro ⟨v, hv, hhas⟩
    exact ⟨v, List.mem_of_find?_eq_some hv, hhas⟩
  · rintro ⟨v, hv, hhas⟩
    have hfound : (findVma p addr).isSome := List.find?_isSome.2 ⟨v, hv, hhas⟩
    obtain ⟨w, hw⟩ := Option.isSome_iff_exists.1 hfound
    have hhas' := List.find?_some (p := fun v : Vma => v.has addr) hw
    exact ⟨w, hw, hhas'⟩

theorem findVma_eq_none_iff (p : Proc) (addr : Nat) :
    findVma p addr = none ↔ p.space.vmaUsed.countP (·.has addr) = 0 := by
  rw [findVma, List.find?_eq_none, List.countP_eq_zero]

theorem findRight_iff {s : Client} (hused : s.proc.space.vmaUsed = s.handed)
    (elfStart elfSize : Nat) :
    FindRight elfStart elfSize s ↔ HandedOnce elfStart elfSize s := by
  refine forall_congr' fun addr => ?_
  have hknown : Known elfStart elfSize s addr ↔
      InElf elfStart elfSize addr ∨ 0 < s.handed.countP (·.has addr.toNat) := by
    rw [List.countP_pos_iff, Known]
  have hsome := findVma_isSome_iff s.proc addr.toNat
  have hnone := findVma_eq_none_iff s.proc addr.toNat
  rw [hused] at hsome hnone
  rw [hknown, hnone, hused]
  constructor
  · rintro ⟨hin, hout⟩
    constructor
    · intro helf
      obtain ⟨v, -, -, hone⟩ := hin (.inl helf)
      omega
    · by_cases hpos : 0 < s.handed.countP (·.has addr.toNat)
      · obtain ⟨v, -, -, hone⟩ := hin (.inr hpos)
        omega
      · omega
  · rintro ⟨helf, hle⟩
    constructor
    · intro hin
      have hpos : 0 < s.handed.countP (·.has addr.toNat) := hin.elim helf id
      obtain ⟨v, hv, hhas⟩ := hsome.2 hpos
      exact ⟨v, hv, hhas, by omega⟩
    · intro hout
      omega

/-- The image ends below the brk area, or at the very top of the address space: its last
address is not one of the mmap area. -/
theorem outside_area (hpos : 0 < elfSize)
    (hbrk : alignUp (u64 (elfStart + elfSize)) 4096 ≤ processBrkTop) :
    ∃ addr : BitVec 64, InElf elfStart elfSize addr ∧
      ¬ (processMmapBottom ≤ addr.toNat ∧ addr.toNat < processMmapTop) := by
  have hup : alignUp (u64 ((elfStart : Int) + elfSize)) 4096 =
      (u64 ((elfStart : Int) + elfSize) + 4095) % 2 ^ 64 / 4096 * 4096 := alignUp_mod _ 12
  have hlast : (BitVec.ofNat 64 (u64 ((elfStart : Int) + elfSize - 1))).toNat =
      u64 ((elfStart : Int) + elfSize - 1) := by
    rw [BitVec.toNat_ofNat]
    exact Nat.mod_eq_of_lt (u64_lt _)
  refine ⟨BitVec.ofNat 64 (u64 ((elfStart : Int) + elfSize - 1)), ?_, ?_⟩
  · rw [InElf, hlast]
    unfold u64
    omega
  · rw [hlast]
    rw [hup] at hbrk
    unfold u64 processBrkTop at hbrk
    unfold u64 processMmapBottom processMmapTop
    omega

/-- A request among those of `staysInArea`, made by a process. -/
def staysStep (s : Client) (r : Request) : Prop := staysInArea s.proc.space r

/-- **`find_vma`**, in every process that `vspace_init` has set up and after every sequence of
requests: it is right exactly if the requests happen to have handed out the whole ELF image and
no address twice. As long as no request wraps around, that is never so. -/
theorem find_vma_right_iff {env : SpaceEnv} {proc p : Proc} {elfStart elfSize : Nat} {ret : Int}
    (hinit : vspaceInit env proc elfStart elfSize = (ret, p)) (hret : 0 ≤ ret) {s : Client}
    (hrun : Steps step (fun _ _ => True) ⟨p, []⟩ s) :
    (FindRight elfStart elfSize s ↔ HandedOnce elfStart elfSize s) ∧
      (Steps step staysStep ⟨p, []⟩ s → ¬ FindRight elfStart elfSize s) := by
  obtain ⟨hspace, -, hbrk, htop, -, -, hpos, -⟩ := vspaceInit_ok hinit hret
  have hused : s.proc.space.vmaUsed = s.handed := by
    refine hrun.invariant (P := fun s => s.proc.space.vmaUsed = s.handed) ?_ ?_
    · rw [hspace]
      rfl
    · exact fun _ _ _ hused _ hstep => step_used hstep hused
  have hright := findRight_iff hused elfStart elfSize
  refine ⟨hright, fun hstays hfind => ?_⟩
  have harea : InArea s.proc.space := by
    refine hstays.invariant (P := fun s => InArea s.proc.space) ?_ ?_
    · rw [hspace]
      exact vspaceInit_inArea
    · exact fun _ _ _ harea hok hstep => step_inArea harea hok (step_space hstep)
  -- the image has an address that no region of the area contains
  obtain ⟨addr, helf, hout⟩ := outside_area hpos (hbrk ▸ htop)
  obtain ⟨v, hv, hhas⟩ := List.countP_pos_iff.1 ((hright.1 hfind addr).1 helf)
  have hin := harea.used v (hused ▸ hv)
  simp only [Vma.has, Bool.and_eq_true, decide_eq_true_eq] at hhas
  omega

/-- A handle for every pma that the kernel does not refuse. -/
def pmaAnswer (size : Nat) : Int := if size = 0 ∨ size % 4096 ≠ 0 then -einval else 3

theorem pmaAnswer_refuses (size : Nat) (h : size = 0 ∨ size % 4096 ≠ 0) : pmaAnswer size ≤ 0 := by
  rw [pmaAnswer, if_pos h]
  decide

def plenty : SpaceEnv := ⟨true, true, pmaAnswer, fun _ _ _ _ _ => 0, pmaAnswer_refuses⟩

/-- A process with two pages from `0x400000` on. -/
def twoPages : Int × Proc := vspaceInit plenty ⟨2, ⟨[], []⟩, 0, 0, 0⟩ 0x400000 0x2000

/-- The last page of the area and so much more that the end wraps around to `0x1000`. -/
def wrapping : Request :=
  ⟨0x3fbfffe000#64, 0xffffffc040003000#64, 3, 1, [some ⟨0, 0, 0, 0⟩, some ⟨0, 0, 0, 0⟩]⟩

def anywhere : Request := ⟨0#64, 4096#64, 3, 1, []⟩

/-- The regions of the two requests: one that is empty, and all from `0x1000` on. -/
def wrapped : List Vma :=
  [⟨0x1000, processMmapTop, 3, 1⟩, ⟨0x3fbfffe000, 0x1000, 3, 1⟩]

theorem wrapped_handedOnce {s : Client} (h : s.handed = wrapped) :
    HandedOnce 0x400000 0x2000 s := by
  intro addr
  rw [h, wrapped, countP_has, countP_has, List.countP_nil, InElf]
  unfold within u64 processMmapTop
  simp only
  constructor
  · intro helf
    split_ifs
    all_goals omega
  · split_ifs
    all_goals omega

/-- The suffix that a wrapped request leaves begins below the ELF image, and the next request
gets it. -/
theorem find_vma_right_wrapped :
    ∃ s, Steps step (fun _ _ => True) ⟨twoPages.2, []⟩ s ∧ 0 ≤ twoPages.1 ∧
      FindRight 0x400000 0x2000 s := by
  have hfirst : ∃ s, step ⟨twoPages.2, []⟩ wrapping = some s ∧
      ∃ t, step s anywhere = some t ∧ t.handed = wrapped := ⟨_, rfl, _, rfl, rfl⟩
  obtain ⟨s, hs, t, ht, hhanded⟩ := hfirst
  have hrun : Steps step (fun _ _ => True) ⟨twoPages.2, []⟩ t :=
    ((Steps.refl).tail wrapping trivial hs).tail anywhere trivial ht
  have hinit : vspaceInit plenty ⟨2, ⟨[], []⟩, 0, 0, 0⟩ 0x400000 0x2000 =
      (twoPages.1, twoPages.2) := rfl
  refine ⟨t, hrun, by decide, ?_⟩
  exact (find_vma_right_iff hinit (by decide) hrun).1.2 (wrapped_handedOnce hhanded)

/-- A process that has just been set up: no region with its first address is found. -/
theorem find_vma_misses_elf :
    0 ≤ twoPages.1 ∧ InElf 0x400000 0x2000 0x400000#64 ∧
      findVma twoPages.2 (0x400000#64).toNat = none ∧
      ¬ FindRight 0x400000 0x2000 ⟨twoPages.2, []⟩ := by
  have helf : InElf 0x400000 0x2000 0x400000#64 := by
    unfold InElf
    decide
  refine ⟨by decide, helf, rfl, fun hfind => ?_⟩
  obtain ⟨v, hv, -⟩ := (hfind 0x400000#64).1 (.inl helf)
  cases hv

end SpringOs.RootProc
