import SpringOs.ExecImage
import SpringOs.RootProc

/-!
`exec` of the root service, `roots/exec.c`: the extent of an ELF image from its program headers,
and the region it is given in the new process.

The headers are those that the kernel's `exec` reads. What `halloc_zero` and the kernel answer
is part of a call.

* `scanHeaders_spec`: the loop is a fold over the loadable headers of the file;
* `spanOf_bounds`: the fold is the lowest address and the highest end;
* **`exec_region_iff`**: which accepted files get a right region. The lowest address is not
  rounded down to its page, and a file without loadable headers is not refused.
-/

namespace SpringOs.RootExec
open Kernel Lib.Word Lib.Bytes Ramdisk RootProc
open Exec (ProgHdr progHdr elfHdr elfHdrSize progHdrSize elfMagic elfProgLoad hdrAt progHdrs isLoad
  loadHdrs hdr_held hdrAt_lt loadHdrs_far tinyDisk)

/-- `elf_load_vbase`, `elf_load_vend` and `elf_load_align`. -/
structure Span where
  vbase : Nat
  vend : Nat
  align : Nat

def Span.start : Span := ⟨u64 (-1), 0, 0⟩

/-- One loadable header, with its `p_align`. -/
def Span.add (s : Span) (ph : ProgHdr) (align : Nat) : Span where
  vbase := if ph.vaddr < s.vbase then ph.vaddr else s.vbase
  vend := if u64 (ph.vaddr + ph.memsz) > s.vend then u64 (ph.vaddr + ph.memsz) else s.vend
  align := if align > s.align then align else s.align

/-- The field `p_align` of the header at an offset of the file. -/
def pAlign (disk : Nat → Byte) (inode off : Nat) : Nat :=
  ofBytes (view (fun i => fileByte disk inode (off + i)) 48) 8

/-- The loop over the program headers, with `n` of them to go; `off` is an `int`. -/
def scanHeaders (disk : Nat → Byte) (inode : Nat) : Nat → Int → Span → Option Span
  | 0, _, s => some s
  | n + 1, off, s =>
    if (ramdiskRead disk inode progHdrSize (u64 off)).1 ≠ progHdrSize then none
    else
      let ph := hdrAt disk inode (u64 off)
      if ph.type ≠ elfProgLoad then scanHeaders disk inode n (i32 (off + progHdrSize)) s
      else if ph.memsz < ph.filesz then none
      else if u64 (ph.vaddr + ph.memsz) < ph.vaddr then none
      else
        scanHeaders disk inode n (i32 (off + progHdrSize)) (s.add ph (pAlign disk inode (u64 off)))

/-- Whether `create_new_proc` gets memory, the handle by the entry point, and what
`vspace_init` meets. -/
structure ExecEnv where
  procMem : Bool
  handle : Nat → Int
  space : SpaceEnv

/-- `create_new_proc`; a handle that the kernel refuses is kept. -/
def createNewProc (env : ExecEnv) (entry : Nat) : Option Proc :=
  if env.procMem then some ⟨env.handle entry, ⟨[], []⟩, 0, 0, 0⟩ else none

/-- `exec`: the result, and the start and size given to `vspace_init` if it gets there. -/
def exec (env : ExecEnv) (rd : Option (Nat → Byte)) (path : List Byte)
    (argv : Option (List (List Byte))) : Int × Option (Nat × Nat) :=
  match argv, rd, ramdiskOpen rd (cstr path) with
  | some (_ :: _), some disk, .ok inode =>
    if (ramdiskRead disk inode elfHdrSize 0).1 ≠ elfHdrSize then (-1, none)
    else
      let elf := elfHdr (fileByte disk inode)
      if elf.magic ≠ elfMagic then (-1, none)
      else
        match scanHeaders disk inode elf.phnum (i32 elf.phoff) Span.start with
        | none => (-1, none)
        | some s =>
          let elfMapSize := alignUp (u64 (s.vend - s.vbase)) 4096
          match createNewProc env elf.entry with
          | none => (-1, none)
          | some p =>
            if (vspaceInit env.space p s.vbase elfMapSize).1 < 0 then
              (-1, some (s.vbase, elfMapSize))
            else (0, some (s.vbase, elfMapSize))
  | _, _, _ => (-1, none)

/-! ## The loop -/

/-- The lowest address and the highest end of some headers. -/
def spanOf (phs : List ProgHdr) (s : Span) : Span := phs.foldl (fun s ph => s.add ph 0) s

/-- Up to the alignment, which nothing reads. -/
def Span.Same (s t : Span) : Prop := s.vbase = t.vbase ∧ s.vend = t.vend

theorem Span.Same.add {s t : Span} (h : s.Same t) (ph : ProgHdr) (a b : Nat) :
    (s.add ph a).Same (t.add ph b) := by
  obtain ⟨hbase, hend⟩ := h
  constructor
  · simp only [Span.add, hbase]
  · simp only [Span.add, hend]

variable {disk : Nat → Byte} {inode : Nat} {s : Span} {phs : List ProgHdr}

/-- A loop that does not give up has folded the loadable headers of the file, and none of their
segments wraps around. -/
theorem scanHeaders_spec (hfile : fSize disk inode < 2 ^ 31) {n off : Nat} {t u : Span}
    (hoff : off < 2 ^ 31) (hsame : s.Same t) (h : scanHeaders disk inode n off s = some u) :
    u.Same (spanOf ((progHdrs disk inode n off).filter isLoad) t) ∧
      ∀ ph ∈ (progHdrs disk inode n off).filter isLoad, ph.vaddr + ph.memsz < 2 ^ 64 := by
  induction n generalizing off s t with
  | zero =>
    cases h
    exact ⟨hsame, by simp [progHdrs]⟩
  | succ n ih =>
    have hu : u64 (off : Int) = off := by
      rw [u64_natCast]
      omega
    rw [scanHeaders, hu] at h
    split at h
    · cases h
    · rename_i hread
      have hheld := hdr_held hfile (not_not.1 hread)
      have hnext : i32 (off + progHdrSize) = (off + progHdrSize : Nat) := by
        unfold progHdrSize at hheld ⊢
        unfold i32
        omega
      have hlist : progHdrs disk inode (n + 1) off =
          hdrAt disk inode off :: progHdrs disk inode n (off + progHdrSize) := if_pos hheld
      simp only [hnext] at h
      rw [hlist]
      split at h
      · rename_i htype
        have hskip : isLoad (hdrAt disk inode off) = false := by simpa [isLoad] using htype
        rw [List.filter_cons_of_neg (by simp [hskip])]
        exact ih (by omega) hsame h
      · rename_i htype
        have hload : isLoad (hdrAt disk inode off) = true := by
          simpa [isLoad] using not_not.1 htype
        rw [List.filter_cons_of_pos hload]
        split at h
        · cases h
        · split at h
          · cases h
          · rename_i hwrap
            obtain ⟨hfold, hall⟩ := ih (by omega) (hsame.add (hdrAt disk inode off) _ 0) h
            refine ⟨hfold, fun ph hph => ?_⟩
            rcases List.mem_cons.1 hph with rfl | hph
            · have hlt : (hdrAt disk inode off).vaddr < 2 ^ 64 ∧ _ := hdrAt_lt off
              unfold u64 at hwrap
              omega
            · exact hall ph hph

theorem Span.add_eq (s : Span) {ph : ProgHdr} (hsum : ph.vaddr + ph.memsz < 2 ^ 64) (a : Nat) :
    (s.add ph a).vbase = min ph.vaddr s.vbase ∧
      (s.add ph a).vend = max (ph.vaddr + ph.memsz) s.vend := by
  have hend : u64 ((ph.vaddr : Int) + ph.memsz) = ph.vaddr + ph.memsz := by
    unfold u64
    omega
  simp only [Span.add, hend]
  constructor
  · split <;> omega
  · split <;> omega

/-- The fold is below every address and above every end. -/
theorem spanOf_bounds (hsum : ∀ ph ∈ phs, ph.vaddr + ph.memsz < 2 ^ 64) (hvend : s.vend < 2 ^ 64) :
    (∀ ph ∈ phs, (spanOf phs s).vbase ≤ ph.vaddr ∧ ph.vaddr + ph.memsz ≤ (spanOf phs s).vend) ∧
      (spanOf phs s).vbase ≤ s.vbase ∧ s.vend ≤ (spanOf phs s).vend ∧
      (spanOf phs s).vend < 2 ^ 64 := by
  induction phs generalizing s with
  | nil => exact ⟨by simp, Nat.le_refl _, Nat.le_refl _, hvend⟩
  | cons ph phs ih =>
    have hph := hsum ph List.mem_cons_self
    obtain ⟨hbase, hend⟩ := s.add_eq hph 0
    obtain ⟨hall, hle, hge, hlt⟩ :=
      ih (fun q hq => hsum q (List.mem_cons_of_mem _ hq)) (s := s.add ph 0) (by omega)
    have hstep : spanOf (ph :: phs) s = spanOf phs (s.add ph 0) := rfl
    rw [hstep]
    refine ⟨fun q hq => ?_, by omega, by omega, hlt⟩
    rcases List.mem_cons.1 hq with rfl | hq
    · exact ⟨by omega, by omega⟩
    · exact hall q hq

theorem spanOf_reached (hsum : ∀ ph ∈ phs, ph.vaddr + ph.memsz < 2 ^ 64) (s : Span) :
    (spanOf phs s).vbase = s.vbase ∨ ∃ ph ∈ phs, (spanOf phs s).vbase = ph.vaddr := by
  induction phs generalizing s with
  | nil => exact .inl rfl
  | cons ph phs ih =>
    obtain ⟨hbase, -⟩ := s.add_eq (hsum ph List.mem_cons_self) 0
    have hstep : spanOf (ph :: phs) s = spanOf phs (s.add ph 0) := rfl
    rw [hstep]
    rcases ih (fun q hq => hsum q (List.mem_cons_of_mem _ hq)) (s.add ph 0) with
      hinit | ⟨q, hq, hqv⟩
    · by_cases hlow : ph.vaddr ≤ s.vbase
      · exact .inr ⟨ph, List.mem_cons_self, by omega⟩
      · exact .inl (by omega)
    · exact .inr ⟨q, List.mem_cons_of_mem _ hq, hqv⟩

theorem spanOf_lowest (hsum : ∀ ph ∈ phs, ph.vaddr + ph.memsz < 2 ^ 64) (hphs : phs ≠ []) :
    ∃ ph ∈ phs, (spanOf phs Span.start).vbase = ph.vaddr := by
  rcases spanOf_reached hsum Span.start with hinit | hreach
  · obtain ⟨ph, hph⟩ := List.exists_mem_of_ne_nil _ hphs
    have hle := ((spanOf_bounds hsum (s := Span.start) (by decide)).1 ph hph).1
    have hlast := hsum ph hph
    have hstart : Span.start.vbase = 2 ^ 64 - 1 := by decide
    exact ⟨ph, hph, by omega⟩
  · exact hreach

/-! ## The region -/

/-- The region is made of pages, and holds all pages of all loadable segments. -/
structure RegionRight (disk : Nat → Byte) (inode vbase size : Nat) : Prop where
  loadable : loadHdrs disk inode ≠ []
  base : vbase % 4096 = 0
  pages : size % 4096 = 0
  holds : ∀ ph ∈ loadHdrs disk inode, ∀ a, ph.vaddr ≤ a → a < ph.vaddr + ph.memsz →
    vbase ≤ a / 4096 * 4096 ∧ a / 4096 * 4096 + 4096 ≤ vbase + size

/-- There are loadable headers, and the lowest of their addresses is that of a page. -/
def LowestAligned (disk : Nat → Byte) (inode : Nat) : Prop :=
  loadHdrs disk inode ≠ [] ∧ ∀ ph ∈ loadHdrs disk inode,
    (∀ q ∈ loadHdrs disk inode, ph.vaddr ≤ q.vaddr) → ph.vaddr % 4096 = 0

theorem exec_accepted {env : ExecEnv} {path : List Byte} {argv : Option (List (List Byte))}
    {region : Option (Nat × Nat)} (hopen : ramdiskOpen (some disk) (cstr path) = .ok inode)
    (h : exec env (some disk) path argv = (0, region)) :
    ∃ s, scanHeaders disk inode (elfHdr (fileByte disk inode)).phnum
        (i32 (elfHdr (fileByte disk inode)).phoff) Span.start = some s ∧
      region = some (s.vbase, alignUp (u64 (s.vend - s.vbase)) 4096) ∧
      0 < alignUp (u64 (s.vend - s.vbase)) 4096 := by
  unfold exec at h
  rw [hopen] at h
  split at h
  · rename_i hdisk hok
    cases hdisk
    cases hok
    split at h
    · cases h
    · simp only at h
      split at h
      · cases h
      · split at h
        · cases h
        · rename_i s hscan
          split at h
          · cases h
          · rename_i p hp
            split at h
            · cases h
            · rename_i hret
              cases h
              obtain ⟨-, -, -, -, -, -, hsize, -⟩ := vspaceInit_ok rfl (Int.not_lt.1 hret)
              exact ⟨s, hscan, rfl, hsize⟩
  · cases h

/-- The region of an accepted file with loadable headers. -/
theorem regionRight_iff (hload : loadHdrs disk inode ≠ [])
    (hsum : ∀ ph ∈ loadHdrs disk inode, ph.vaddr + ph.memsz < 2 ^ 64)
    (hsame : s.Same (spanOf (loadHdrs disk inode) Span.start))
    (hsize : 0 < alignUp (u64 (s.vend - s.vbase)) 4096) :
    RegionRight disk inode s.vbase (alignUp (u64 (s.vend - s.vbase)) 4096) ↔
      LowestAligned disk inode := by
  obtain ⟨hall, -, -, hlt⟩ := spanOf_bounds hsum (s := Span.start) (by decide)
  obtain ⟨low, hlow, hlowest⟩ := spanOf_lowest hsum hload
  obtain ⟨hvbase, hvend⟩ := hsame
  rw [← hvbase, ← hvend] at hall
  rw [← hvbase] at hlowest
  rw [← hvend] at hlt
  have hordered : s.vbase ≤ s.vend := by
    have := hall low hlow
    omega
  have hdiff : u64 ((s.vend : Int) - s.vbase) = s.vend - s.vbase := by
    unfold u64
    omega
  -- the size was not refused, so rounding it up has not wrapped around
  rw [hdiff] at hsize ⊢
  rw [alignUp_page_of_pos (by omega) hsize]
  constructor
  · intro hright
    refine ⟨hload, fun ph hph hmin => ?_⟩
    have hle := (hall ph hph).1
    have hge := hmin low hlow
    have hb := hright.base
    rwa [show ph.vaddr = s.vbase by omega]
  · rintro ⟨-, haligned⟩
    have hb : s.vbase % 4096 = 0 := by
      rw [hlowest]
      exact haligned low hlow fun q hq => hlowest ▸ (hall q hq).1
    refine ⟨hload, hb, Nat.mul_mod_left _ _, fun ph hph a hlo hhi => ?_⟩
    obtain ⟨hle, hge⟩ := hall ph hph
    constructor
    · omega
    · omega

/-- **The region of the image**, for every file of the ramdisk that `exec` accepts: it is made
of pages and holds those of every loadable segment exactly if the lowest segment starts at a
page; a file without loadable headers is accepted like any other. -/
theorem exec_region_iff {env : ExecEnv} {path : List Byte} {argv : Option (List (List Byte))}
    {region : Option (Nat × Nat)} (hopen : ramdiskOpen (some disk) (cstr path) = .ok inode)
    (hfile : fSize disk inode ≤ ramdiskSize)
    (hrun : exec env (some disk) path argv = (0, region)) :
    ∃ vbase size, region = some (vbase, size) ∧
      (RegionRight disk inode vbase size ↔ LowestAligned disk inode) := by
  have hsmall : fSize disk inode < 2 ^ 31 := hfile.trans_lt (by decide)
  obtain ⟨s, hscan, hregion, hsize⟩ := exec_accepted hopen hrun
  refine ⟨_, _, hregion, ?_⟩
  by_cases hload : loadHdrs disk inode = []
  · exact iff_of_false (fun h => h.loadable hload) (fun h => h.1 hload)
  · have hphoff : (elfHdr (fileByte disk inode)).phoff < 2 ^ 31 := by
      apply Classical.byContradiction
      intro hfar
      exact hload (loadHdrs_far hsmall (Nat.le_of_not_lt hfar))
    rw [i32_of_lt (by omega) (by omega)] at hscan
    obtain ⟨hsame, hsum⟩ := scanHeaders_spec hsmall hphoff ⟨rfl, rfl⟩ hscan
    exact regionRight_iff hload hsum hsame hsize

def plenty : ExecEnv := ⟨true, fun _ => 2, RootProc.plenty⟩

theorem exec_region_tiny :
    exec plenty (some (tinyDisk 0)) [97] (some [[97]]) = (0, some (0x400000, 4096)) ∧
      RegionRight (tinyDisk 0) 64 0x400000 4096 := by
  have hhdrs : loadHdrs (tinyDisk 0) 64 = [⟨1, 0, 0x400000, 4, 8⟩] := rfl
  have hrun : exec plenty (some (tinyDisk 0)) [97] (some [[97]]) = (0, some (0x400000, 4096)) := by
    decide +kernel
  have hopen : ramdiskOpen (some (tinyDisk 0)) (cstr [97]) = .ok 64 := rfl
  obtain ⟨vbase, size, heq, hright⟩ := exec_region_iff hopen (by decide +kernel) hrun
  cases heq
  refine ⟨hrun, hright.2 ?_⟩
  rw [LowestAligned, hhdrs]
  refine ⟨List.cons_ne_nil _ _, fun ph hph _ => ?_⟩
  obtain rfl := List.mem_singleton.1 hph
  exact show 0x400000 % 4096 = 0 by decide

def acrossPages (i : Nat) : Byte :=
  if i = 208 then 0xfc else if i = 209 then 0x0f else tinyDisk 0 i

def noHeaders (i : Nat) : Byte := if i = 184 then 0 else tinyDisk 0 i

/-- The region starts in the middle of a page and ends before the last page of the segment; and
a file without headers is given a page at the top of the address space. -/
theorem exec_region_across_pages :
    exec plenty (some acrossPages) [97] (some [[97]]) = (0, some (0x400ffc, 4096)) ∧
      ¬ RegionRight acrossPages 64 0x400ffc 4096 ∧
      exec plenty (some noHeaders) [97] (some [[97]]) = (0, some (0xffffffffffffffff, 4096)) ∧
      loadHdrs noHeaders 64 = [] := by
  refine ⟨by decide +kernel, fun h => ?_, by decide +kernel, rfl⟩
  exact absurd h.base (by decide)

end SpringOs.RootExec
