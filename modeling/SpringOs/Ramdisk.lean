import SpringOs.Kernel
import SpringOs.Lib.Bytes

/-!
The readers of the ramdisk: `ramdisk.c` of the kernel and of the root service.

The ramdisk is seen as its bytes, counted from its start. Both readers have the same
`ramdisk_open` and `ramdisk_read`; they differ in how they are set up.

* **`strncmp_eq_zero_iff`**, `strncmp_take`: the names that `strncmp` takes for equal;
* `ramdiskFind_eq_some`: the search stops at the first inode with the name;
* **`ramdisk_read_right_iff`**: which reads of an opened file are right. The sum of `offset` and
  `size` may wrap, the extent of the file is never compared with the ramdisk, and the result is
  an `int`.
-/

namespace SpringOs.Ramdisk
open Kernel Lib.Word Lib.Bytes

/-! ## Strings -/

def cstr (s : List Byte) (i : Nat) : Byte := s.getD i 0

/-- `strncmp`: the difference at the first place where the strings differ or one ends. -/
def strncmp (l r : Nat → Byte) : Nat → Int
  | 0 => 0
  | n + 1 =>
    if l 0 ≠ 0 ∧ r 0 ≠ 0 ∧ n ≠ 0 ∧ l 0 = r 0 then
      strncmp (fun i => l (i + 1)) (fun i => r (i + 1)) n
    else (l 0).toNat - (r 0).toNat

theorem strncmp_eq_zero_iff (l r : Nat → Byte) (n : Nat) :
    strncmp l r n = 0 ↔ ∀ i < n, (∀ j < i, l j ≠ 0) → l i = r i := by
  induction n generalizing l r with
  | zero => simp [strncmp]
  | succ n ih =>
    unfold strncmp
    split
    · rename_i h
      obtain ⟨hl, -, -, heq⟩ := h
      rw [ih]
      constructor
      · intro hrest i hi hnz
        cases i with
        | zero => exact heq
        | succ i => exact hrest i (by omega) fun j hj => hnz (j + 1) (by omega)
      · intro hall i hi hnz
        apply hall (i + 1) (by omega)
        intro j hj
        cases j with
        | zero => exact hl
        | succ j => exact hnz j (by omega)
    · rename_i h
      have hzero : ((l 0).toNat : Int) - (r 0).toNat = 0 ↔ l 0 = r 0 := by
        rw [← BitVec.toNat_inj]
        omega
      rw [hzero]
      constructor
      · intro heq i hi hnz
        cases i with
        | zero => exact heq
        | succ i =>
          have hl : l 0 ≠ 0 := hnz 0 (by omega)
          exact absurd ⟨hl, heq ▸ hl, by omega, heq⟩ h
      · exact fun hall => hall 0 (by omega) fun j hj => by omega

variable {n a inode size offset : Nat} {disk name l : Nat → Byte} {s t : List Byte}

/-- A name in a buffer, as far as it is compared; what stands behind its terminator does not
matter. -/
theorem strncmp_take (hl : ∀ j < n, j ≤ s.length → l j = cstr s j) (hs0 : 0 ∉ s) (ht0 : 0 ∉ t) :
    strncmp l (cstr t) n = 0 ↔ s.take n = t.take n := by
  have hnz : ∀ {r : List Byte}, 0 ∉ r → ∀ {k : Nat}, k < r.length → cstr r k ≠ 0 := by
    intro r hr k hk
    rw [cstr, List.getD_eq_getElem _ _ hk]
    exact fun h0 => hr (h0 ▸ List.getElem_mem hk)
  have hend : ∀ r : List Byte, ∀ k, r.length ≤ k → cstr r k = 0 :=
    fun r k hk => List.getD_eq_default _ _ hk
  rw [strncmp_eq_zero_iff]
  constructor
  · intro hall
    have hsame : ∀ k < n, k ≤ s.length → cstr s k = cstr t k := by
      intro k hk hks
      rw [← hl k hk hks]
      apply hall k hk
      intro j hj
      rw [hl j (by omega) (by omega)]
      exact hnz hs0 (by omega)
    have hlen : min n s.length = min n t.length := by
      rcases Nat.lt_trichotomy (min n s.length) (min n t.length) with hlt | heq | hlt
      · have h := hsame s.length (by omega) (Nat.le_refl _)
        rw [hend s _ (Nat.le_refl _)] at h
        exact absurd h.symm (hnz ht0 (by omega))
      · exact heq
      · have h := hsame t.length (by omega) (by omega)
        rw [hend t _ (Nat.le_refl _)] at h
        exact absurd h (hnz hs0 (by omega))
    apply List.ext_getElem (by rw [List.length_take, List.length_take, hlen])
    intro k hks hkt
    rw [List.length_take] at hks hkt
    have h := hsame k (by omega) (by omega)
    rw [cstr, cstr, List.getD_eq_getElem _ _ (by omega), List.getD_eq_getElem _ _ (by omega)] at h
    rw [List.getElem_take, List.getElem_take, h]
  · intro htake k hk hpre
    have hks : k ≤ s.length := by
      apply Nat.le_of_not_lt
      intro hlt
      exact hpre _ hlt ((hl _ (by omega) (Nat.le_refl _)).trans (hend s _ (Nat.le_refl _)))
    have hget : (s.take n)[k]? = (t.take n)[k]? := by rw [htake]
    rw [List.getElem?_take_of_lt hk, List.getElem?_take_of_lt hk] at hget
    rw [hl k hk hks, cstr, cstr, List.getD_eq_getElem?_getD, List.getD_eq_getElem?_getD, hget]

theorem strncmp_names (hl : ∀ j < s.length + 1, l j = cstr s j) (hs : s.length ≤ 31) (hs0 : 0 ∉ s)
    (ht : t.length ≤ 31) (ht0 : 0 ∉ t) : strncmp l (cstr t) 31 = 0 ↔ s = t := by
  rw [strncmp_take (fun j _ hj => hl j (by omega)) hs0 ht0, List.take_of_length_le hs,
    List.take_of_length_le ht]

/-! ## The image -/

def ebadf : Int := 9

def ramdiskMagic : List Byte := [77, 73, 78, 79, 83, 82, 65, 77, 68, 73, 83, 75, 46, 46, 46, 46]

/-- `RAMDISK_BASE` and `RAMDISK_SIZE`, the memory set aside for the ramdisk. -/
def ramdiskBase : Nat := 0x44000000
def ramdiskSize : Nat := 0x2000000

/-- `SYS_PROC_RAMDISK_BASE`, where `exec` maps the ramdisk for the root service. -/
def sysProcRamdiskBase : Nat := 0x1040000000

def view (disk : Nat → Byte) (a i : Nat) : Byte := disk (a + i)

structure RamdiskSb where
  fileCnt : Nat
  inodeOffset : Nat
  dataOffset : Nat

/-- The superblock, right behind the magic. -/
def sb (disk : Nat → Byte) : RamdiskSb where
  fileCnt := ofBytes (view disk 16) 4
  inodeOffset := ofBytes (view disk 24) 8
  dataOffset := ofBytes (view disk 32) 8

/-- `sizeof(struct ramdisk_inode)`: 32 bytes of name, the offset and the size. -/
def inodeSize : Nat := 48

def fOffset (disk : Nat → Byte) (inode : Nat) : Nat := ofBytes (view disk (inode + 32)) 8
def fSize (disk : Nat → Byte) (inode : Nat) : Nat := ofBytes (view disk (inode + 40)) 8

/-! ## The readers -/

/-- What follows the checks of the start address in both readers: the ramdisk is in use
from here on if its magic is right. -/
def checkMagic (disk : Nat → Byte) : Int × Option (Nat → Byte) :=
  if strncmp disk (cstr ramdiskMagic) 16 ≠ 0 then (-ebadf, none) else (0, some disk)

/-- `ramdisk_copy_from_flash`: the flash replaces what the memory held. -/
def ramdiskCopyFromFlash (flash mem : Nat → Byte) (i : Nat) : Byte :=
  if i < ramdiskSize then flash i else mem i

/-- `init_ramdisk` of the kernel. -/
def initRamdisk (flash mem : Nat → Byte) : Int × Option (Nat → Byte) :=
  if !isAligned (ptov ramdiskBase) 4096 then (-einval, none)
  else checkMagic (ramdiskCopyFromFlash flash mem)

/-- `ramdisk_init` of the root service, for the ramdisk mapped at `base`. -/
def ramdiskInit (disk : Nat → Byte) (base : Nat) : Int × Option (Nat → Byte) :=
  if !isAligned base 4096 then (-einval, none) else checkMagic disk

/-- `__ramdisk_open`, with `n` inodes to go. -/
def ramdiskFind (disk name : Nat → Byte) : Nat → Nat → Option Nat
  | 0, _ => none
  | n + 1, inode =>
    if strncmp (view disk inode) name 31 = 0 then some inode
    else ramdiskFind disk name n (inode + inodeSize)

/-- `ramdisk_open`: the inode. -/
def ramdiskOpen (rd : Option (Nat → Byte)) (name : Nat → Byte) : Except Int Nat :=
  match rd with
  | none => .error (-enoent)
  | some disk =>
    match ramdiskFind disk name (sb disk).fileCnt (sb disk).inodeOffset with
    | none => .error (-enoent)
    | some inode => .ok inode

structure RamdiskFile where
  inode : Nat
  pos : Nat

/-- `ramdisk_open`: the result, and the descriptor, which is cleared and filled in only if
the file was found. -/
def ramdiskOpenFile (rd : Option (Nat → Byte)) (name : Nat → Byte) (fd : RamdiskFile) :
    Int × RamdiskFile :=
  match ramdiskOpen rd name with
  | .error ret => (ret, fd)
  | .ok inode => (0, ⟨inode, 0⟩)

/-- Byte `i` of a file's data. -/
def fileByte (disk : Nat → Byte) (inode i : Nat) : Byte :=
  disk ((sb disk).dataOffset + fOffset disk inode + i)

/-- `ramdisk_read`: the result, and where the copied bytes come from if any are. -/
def ramdiskRead (disk : Nat → Byte) (inode size offset : Nat) : Int × Option (Nat → Byte) :=
  if offset > fSize disk inode then (0, none)
  else if u64 (offset + size) > fSize disk inode then (0, none)
  else (i32 size, some fun i => fileByte disk inode (offset + i))

theorem ramdiskFind_eq_some {i : Nat} (hi : i < n)
    (hmatch : strncmp (view disk (a + inodeSize * i)) name 31 = 0)
    (hfirst : ∀ j < i, strncmp (view disk (a + inodeSize * j)) name 31 ≠ 0) :
    ramdiskFind disk name n a = some (a + inodeSize * i) := by
  induction i generalizing n a with
  | zero =>
    cases n with
    | zero => omega
    | succ n => exact if_pos hmatch
  | succ i ih =>
    have hshift : ∀ j, a + inodeSize * (j + 1) = a + inodeSize + inodeSize * j := by
      intro j
      rw [Nat.mul_succ]
      omega
    cases n with
    | zero => omega
    | succ n =>
      have hhead : strncmp (view disk a) name 31 ≠ 0 := hfirst 0 (by omega)
      rw [ramdiskFind, if_neg hhead, hshift]
      apply ih (by omega)
      · rwa [← hshift]
      · intro j hj
        rw [← hshift]
        exact hfirst (j + 1) (by omega)

theorem ramdiskFind_eq_none_iff (disk name : Nat → Byte) (n a : Nat) :
    ramdiskFind disk name n a = none ↔
      ∀ i < n, strncmp (view disk (a + inodeSize * i)) name 31 ≠ 0 := by
  induction n generalizing a with
  | zero => simp [ramdiskFind]
  | succ n ih =>
    have hshift : ∀ i, a + inodeSize * (i + 1) = a + inodeSize + inodeSize * i := by
      intro i
      rw [Nat.mul_succ]
      omega
    rw [ramdiskFind]
    split
    · rename_i hmatch
      exact iff_of_false (Option.some_ne_none a) fun hall => hall 0 (by omega) hmatch
    · rename_i hhead
      rw [ih]
      constructor
      · intro hall i hi
        cases i with
        | zero => exact hhead
        | succ i => exact hshift i ▸ hall i (by omega)
      · intro hall i hi
        rw [← hshift]
        exact hall (i + 1) (by omega)

theorem ramdiskOpenFile_absent_iff (hcnt : (sb disk).fileCnt = n) (hoff : (sb disk).inodeOffset = a)
    (fd : RamdiskFile) :
    ramdiskOpenFile (some disk) name fd = (-enoent, fd) ↔
      ∀ i < n, strncmp (view disk (a + inodeSize * i)) name 31 ≠ 0 := by
  subst hcnt hoff
  rw [← ramdiskFind_eq_none_iff, ramdiskOpenFile, ramdiskOpen]
  cases hfind : ramdiskFind disk name (sb disk).fileCnt (sb disk).inodeOffset with
  | none => exact iff_of_true rfl rfl
  | some inode =>
    refine iff_of_false (fun h => ?_) (Option.some_ne_none inode)
    exact absurd (Prod.mk.inj h).1 (by decide)

theorem ramdiskOpen_eq (hcnt : (sb disk).fileCnt = n) (hoff : (sb disk).inodeOffset = a)
    (hfind : ramdiskFind disk name n a = some inode) :
    ramdiskOpen (some disk) name = .ok inode := by
  subst hcnt hoff
  simp only [ramdiskOpen, hfind]

theorem ramdiskRead_of_le (h : offset + size ≤ fSize disk inode)
    (hsize : fSize disk inode < 2 ^ 31) :
    ramdiskRead disk inode size offset =
      ((size : Int), some fun i => fileByte disk inode (offset + i)) := by
  have hsum : u64 (offset + size) = offset + size := by
    unfold u64
    omega
  rw [ramdiskRead, if_neg (by omega), hsum, if_neg (by omega), i32_of_lt (by omega) (by omega)]

theorem ramdiskRead_of_gt (hsize : size < 2 ^ 63) (h : fSize disk inode < offset + size)
    (hsmall : fSize disk inode < 2 ^ 63) : ramdiskRead disk inode size offset = (0, none) := by
  unfold ramdiskRead
  split
  · rfl
  · rw [if_pos]
    unfold u64
    omega

/-! ## Any read of any opened file -/

/-- A file that was opened from a ramdisk one of the readers accepted, and how many bytes are
set aside for that ramdisk. -/
inductive Opened (disk : Nat → Byte) (inode : Nat) : Nat → Prop
  | kernel {flash mem name : Nat → Byte} (hinit : initRamdisk flash mem = (0, some disk))
      (hopen : ramdiskOpen (some disk) name = .ok inode) : Opened disk inode ramdiskSize
  | service {name : Nat → Byte} {base stop : Nat} (hinit : ramdiskInit disk base = (0, some disk))
      (hopen : ramdiskOpen (some disk) name = .ok inode) : Opened disk inode (stop - base)

/-- Where byte `i` of a read lies, counted from the start of the ramdisk. Pointers wrap. -/
def sourceOf (disk : Nat → Byte) (inode offset i : Nat) : Nat :=
  u64 ((sb disk).dataOffset + fOffset disk inode + offset + i : Nat)

/-- What a read should do, with `size` and `offset` added without a bound. -/
structure ReadRight (disk : Nat → Byte) (region inode size offset : Nat) : Prop where
  inside : offset + size ≤ fSize disk inode →
    ramdiskRead disk inode size offset =
        ((size : Int), some fun i => fileByte disk inode (offset + i)) ∧
      ∀ i < size, offset + i < fSize disk inode ∧ sourceOf disk inode offset i < region
  outside : fSize disk inode < offset + size → ramdiskRead disk inode size offset = (0, none)

theorem fSize_lt (disk : Nat → Byte) (inode : Nat) : fSize disk inode < 2 ^ 64 :=
  ofBytes_lt _ 8

theorem i32_eq_self_iff : i32 n = n ↔ n < 2 ^ 31 := by
  unfold i32
  omega

/-- The three ways to go wrong: the sum of offset and size wraps, the size is no `int`, or the
image places a part of the file outside the ramdisk. -/
theorem ramdisk_read_right_iff {disk : Nat → Byte} {region inode : Nat}
    (_hopen : Opened disk inode region) {size offset : Nat} (hsize : size < 2 ^ 64) :
    ReadRight disk region inode size offset ↔
      (offset ≤ fSize disk inode → offset + size < 2 ^ 64) ∧
      (offset + size ≤ fSize disk inode →
        size < 2 ^ 31 ∧ ∀ i < size, sourceOf disk inode offset i < region) := by
  have hfile := fSize_lt disk inode
  have hsum := u64_natCast (offset + size)
  push_cast at hsum
  constructor
  · intro h
    refine ⟨fun hle => ?_, fun hle => ?_⟩
    · by_contra hwrap
      have hread := h.outside (by omega)
      rw [ramdiskRead, if_neg (by omega), if_neg (by omega)] at hread
      cases (Prod.mk.inj hread).2
    · obtain ⟨hread, hplace⟩ := h.inside hle
      rw [ramdiskRead, if_neg (by omega), if_neg (by omega)] at hread
      exact ⟨i32_eq_self_iff.1 (Prod.mk.inj hread).1, fun i hi => (hplace i hi).2⟩
  · rintro ⟨hwrap, hin⟩
    refine ⟨fun hle => ?_, fun hgt => ?_⟩
    · obtain ⟨hint, hplace⟩ := hin hle
      refine ⟨?_, fun i hi => ⟨by omega, hplace i hi⟩⟩
      rw [ramdiskRead, if_neg (by omega), if_neg (by omega), i32_eq_self_iff.2 hint]
    · rw [ramdiskRead]
      split
      · rfl
      · rename_i hle
        have hlt := hwrap (Nat.le_of_not_lt hle)
        rw [if_pos (by omega)]

/-- An image with one file, `a`, of five bytes. -/
def smallImage : List Byte :=
  ramdiskMagic ++ [1, 0, 0, 0, 0, 0, 0, 0] ++ [40, 0, 0, 0, 0, 0, 0, 0] ++
    [88, 0, 0, 0, 0, 0, 0, 0] ++ (97 :: List.replicate 31 0) ++ [0, 0, 0, 0, 0, 0, 0, 0] ++
    [5, 0, 0, 0, 0, 0, 0, 0] ++ [104, 101, 108, 108, 111]

theorem smallImage_opened :
    Opened (ramdiskCopyFromFlash (cstr smallImage) fun _ => 0) 40 ramdiskSize := by
  have hinit : initRamdisk (cstr smallImage) (fun _ => 0) =
      (0, some (ramdiskCopyFromFlash (cstr smallImage) fun _ => 0)) := by
    rw [initRamdisk, checkMagic, if_neg (by decide +kernel), if_neg (by decide +kernel)]
  have hopen : ramdiskOpen (some (ramdiskCopyFromFlash (cstr smallImage) fun _ => 0)) (cstr [97]) =
      .ok 40 := rfl
  exact .kernel hinit hopen

/-- Four bytes from the second on can be read. -/
theorem smallImage_read : ReadRight (ramdiskCopyFromFlash (cstr smallImage) fun _ => 0)
    ramdiskSize 40 4 1 :=
  (ramdisk_read_right_iff smallImage_opened (by decide)).2 (by decide +kernel)

/-- A size of `2^64 - 1` passes the bound check, as the sum with the offset is 0. -/
theorem smallImage_read_wraps :
    let disk := ramdiskCopyFromFlash (cstr smallImage) fun _ => 0
    Opened disk 40 ramdiskSize ∧ fSize disk 40 = 5 ∧
      ramdiskRead disk 40 (2 ^ 64 - 1) 1 = (-1, some fun i => fileByte disk 40 (1 + i)) ∧
      ¬ ReadRight disk ramdiskSize 40 (2 ^ 64 - 1) 1 := by
  have hfile : fSize (ramdiskCopyFromFlash (cstr smallImage) fun _ => 0) 40 = 5 := by
    decide +kernel
  refine ⟨smallImage_opened, hfile, ?_, fun h => ?_⟩
  · rw [ramdiskRead, if_neg (by rw [hfile]; decide), if_neg (by rw [hfile]; decide)]
    rfl
  · have hread := h.outside (by rw [hfile]; decide)
    rw [ramdiskRead, if_neg (by rw [hfile]; decide), if_neg (by rw [hfile]; decide)] at hread
    cases hread

end SpringOs.Ramdisk
