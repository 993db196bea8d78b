import SpringOs.Lib.Machine
import SpringOs.Ramdisk

/-!
`mkrmd.c`, the tool that makes the ramdisk, and the round trip through its image.

* **`addFileFd`**, **`makeRamdiskDir`**, **`packRamdisk`**: the encoder, with the two memory
  blocks it fills and the bytes it leaves as it finds them;
* `addFileFd_laid`: what one file adds to the blocks;
* `ramdisk_round_trip_iff`: every file added reads back, whatever memory holds behind the
  ramdisk, exactly when the last byte of each file lies in the part of the image that is
  copied from the flash.
-/

namespace SpringOs.Mkrmd
open Kernel Lib.Word Lib.Bytes Ramdisk

variable {content : List Byte} {i : Nat} {imem fmem : Nat → Byte}

/-! ## The encoder -/

structure MemBlock where
  used : Nat
  free : Nat
  mem : Nat → Byte

def imemBlockSize : Nat := 32 * 1024 * 1024
def fmemBlockSize : Nat := 64 * 1024 * 1024

/-- The inodes, the data, and the `file_cnt` of the superblock. -/
structure Blocks where
  imem : MemBlock
  fmem : MemBlock
  fileCnt : Nat

/-- `mem_block_init`; the blocks hold what `malloc` left there. -/
def memBlockInit (imem fmem : Nat → Byte) : Blocks where
  imem := ⟨0, imemBlockSize, imem⟩
  fmem := ⟨0, fmemBlockSize, fmem⟩
  fileCnt := 0

/-- The loop of `__add_file` over the data of the file, with `content` still to be read;
the result is the size, if the block does not fill up. -/
def readLoop (content : List Byte) (fmem : MemBlock) (filesize : Nat) : Option Nat × MemBlock :=
  if fmem.free = 0 then (none, fmem)
  else
    let readsize := if fmem.free > 4096 then 4096 else fmem.free
    let cnt := min readsize content.length
    if cnt = 0 then (some filesize, fmem)
    else
      readLoop (content.drop cnt)
        ⟨fmem.used + cnt, fmem.free - cnt,
          put fmem.mem fmem.used (fun i => content.getD i 0) cnt⟩ (filesize + cnt)
termination_by content.length
decreasing_by
  have : cnt ≤ content.length := Nat.min_le_right ..
  rw [List.length_drop]
  omega

def pad (fmem : MemBlock) (filesize : Nat) : MemBlock :=
  let padding := alignUp filesize 4096 - filesize
  if padding > 0 then
    ⟨fmem.used + padding, u64 (fmem.free - padding), put fmem.mem fmem.used (fun _ => 0) padding⟩
  else fmem

/-- `__add_file`. The inode is taken before the data are read, its size is stored behind. -/
def addFileFd (filename content : List Byte) (st : Blocks) : Int × Blocks :=
  if st.imem.free < inodeSize then (-1, st)
  else
    let inode := st.imem.used
    let mem := put st.imem.mem (inode + 32) (byteOf st.fmem.used) 8
    let mem := put mem inode (cstr filename) (filename.length + 1)
    let used := st.imem.used + inodeSize
    let free := st.imem.free - inodeSize
    match readLoop content st.fmem 0 with
    | (none, fmem) => (-enomem, { st with imem := ⟨used, free, mem⟩, fmem := fmem })
    | (some filesize, fmem) =>
      (0, { imem := ⟨used, free, put mem (inode + 40) (byteOf filesize) 8⟩
            fmem := pad fmem filesize
            fileCnt := st.fileCnt + 1 })

/-- The prefix that `clean_file_name` takes off: `out/ramdisk/`. -/
def cleanPrefix : List Byte := [111, 117, 116, 47, 114, 97, 109, 100, 105, 115, 107, 47]

def cleanFileName (name : List Byte) : Except Fault (List Byte) :=
  if cleanPrefix.isPrefixOf name then .ok (name.drop cleanPrefix.length)
  else .error (.assertion .cleanFileName)

/-- An entry of the directory; there is no content if the file cannot be opened. -/
structure Dirent where
  dName : List Byte
  dType : Nat
  content : Option (List Byte)

/-- `add_file`. -/
def addFile (path : List Byte) (content : Option (List Byte)) (st : Blocks) :
    Except Fault (Int × Blocks) :=
  match content with
  | none => .ok (-1, st)
  | some content => do
    let name ← cleanFileName path
    .ok (addFileFd name content st)

/-- The entries that `make_ramdisk_dir` passes over: `.` and `..`, what is no regular file,
and names that are too long. -/
def skip (dir : List Byte) (d : Dirent) : Bool :=
  d.dName == [46] || d.dName == [46, 46] || d.dType != 8 ||
    decide (dir.length + d.dName.length > 255) || decide (d.dName.length + 1 > 32)

def path (dir : List Byte) (d : Dirent) : List Byte := dir ++ 47 :: d.dName

/-- The loop of `make_ramdisk_dir`. The path goes to a buffer of 256 bytes. -/
def addEntries (dir : List Byte) : List Dirent → Blocks → Except Fault Blocks
  | [], st => .ok st
  | d :: rest, st =>
    if skip dir d then addEntries dir rest st
    else if (path dir d).length + 1 > 256 then .error .outOfBounds
    else do
      let (_, st) ← addFile (path dir d) d.content st
      addEntries dir rest st

/-- A `/` at the end of the directory is taken off. -/
def dirName (dir : List Byte) : List Byte :=
  if dir.getLast? = some 47 then dir.dropLast else dir

def makeRamdiskDir (dir : List Byte) (entries : List Dirent) (st : Blocks) : Except Fault Blocks :=
  addEntries (dirName dir) entries st

def inodeOffset : Nat := alignUp (16 + 32) 16

theorem inodeOffset_eq : inodeOffset = 48 := by decide

def dataOffset (st : Blocks) : Nat := alignUp (inodeOffset + st.imem.used) 4096

def superblk (st : Blocks) (i : Nat) : Byte :=
  if i < 4 then byteOf st.fileCnt i
  else if i < 8 then byteOf 4096 (i - 4)
  else if i < 16 then byteOf inodeOffset (i - 8)
  else if i < 24 then byteOf (dataOffset st) (i - 16)
  else byteOf (dataOffset st + st.fmem.used) (i - 24)

/-- `pack_ramdisk`, over the bytes that the file had. -/
def packRamdisk (st : Blocks) (old : Nat → Byte) : Nat → Byte :=
  let image := put old 0 (cstr ramdiskMagic) 16
  let image := put image 16 (superblk st) 32
  let image := put image inodeOffset st.imem.mem st.imem.used
  put image (dataOffset st) st.fmem.mem st.fmem.used

/-! ## The files added -/

structure File where
  name : List Byte
  content : List Byte

/-- The files for which `add_file` returned 0. -/
def added (dir : List Byte) : List Dirent → Blocks → List File
  | [], _ => []
  | d :: rest, st =>
    if skip dir d then added dir rest st
    else
      match addFile (path dir d) d.content st with
      | .error _ => []
      | .ok (ret, st') =>
        (if ret = 0 then [⟨(path dir d).drop cleanPrefix.length, d.content.getD []⟩] else []) ++
          added dir rest st'

def padded (n : Nat) : Nat := (n + 4095) / 4096 * 4096

def start (files : List File) : Nat := (files.map fun f => padded f.content.length).sum

def maxSlots : Nat := 699050

/-! ## One file -/

theorem readLoop_round {free : Nat} (used filesize : Nat) (mem : Nat → Byte) (hfree : free ≠ 0)
    (hmore : content.length ≠ 0) :
    ∃ cnt, 0 < cnt ∧ cnt ≤ free ∧ cnt ≤ content.length ∧
      readLoop content ⟨used, free, mem⟩ filesize = readLoop (content.drop cnt)
        ⟨used + cnt, free - cnt, put mem used (fun i => content.getD i 0) cnt⟩
        (filesize + cnt) := by
  have hpos : min (if free > 4096 then 4096 else free) content.length ≠ 0 := by
    split <;> omega
  refine ⟨min (if free > 4096 then 4096 else free) content.length, by omega, ?_,
    Nat.min_le_right .., ?_⟩
  · split <;> omega
  · rw [readLoop, if_neg hfree, if_neg hpos]

theorem readLoop_some (content : List Byte) (used free filesize : Nat) (mem : Nat → Byte)
    (hfit : content.length < free) :
    ∃ mem', readLoop content ⟨used, free, mem⟩ filesize = (some (filesize + content.length),
        ⟨used + content.length, free - content.length, mem'⟩) ∧
      (∀ j < content.length, mem' (used + j) = content.getD j 0) ∧
      ∀ x < used, mem' x = mem x := by
  induction hlen : content.length using Nat.strongRecOn
    generalizing content used free filesize mem with
  | ind n ih =>
    subst hlen
    by_cases hmore : content.length = 0
    · refine ⟨mem, ?_, by omega, fun _ _ => rfl⟩
      rw [readLoop, if_neg (Nat.ne_of_gt (Nat.zero_lt_of_lt hfit)),
        if_pos (by rw [hmore]; exact Nat.min_zero _), hmore]
      rfl
    · obtain ⟨cnt, hpos, hfree, hle, hround⟩ :=
        readLoop_round used filesize mem (by omega : free ≠ 0) hmore
      have hdrop : (content.drop cnt).length = content.length - cnt := List.length_drop
      obtain ⟨mem', hrest, hdata, hframe⟩ := ih _ (by omega) (content.drop cnt) (used + cnt)
        (free - cnt) (filesize + cnt) (put mem used (fun i => content.getD i 0) cnt)
        (by omega) rfl
      refine ⟨mem', ?_, ?_, ?_⟩
      · rw [hround, hrest, hdrop, Nat.sub_sub, Nat.add_assoc, Nat.add_assoc,
          Nat.add_sub_cancel' hle]
      · intro j hj
        by_cases hold : j < cnt
        · rw [hframe _ (by omega), put_inside _ _ _ hold]
        · have h := hdata (j - cnt) (by omega)
          rw [List.getD_eq_getElem?_getD, List.getElem?_drop, ← List.getD_eq_getElem?_getD,
            Nat.add_assoc, Nat.add_sub_cancel' (by omega)] at h
          exact h
      · intro x hx
        rw [hframe x (by omega), put_outside _ _ (.inl hx)]

theorem readLoop_none (content : List Byte) (used free filesize : Nat) (mem : Nat → Byte)
    (hfull : free ≤ content.length) :
    ∃ mem', readLoop content ⟨used, free, mem⟩ filesize = (none, ⟨used + free, 0, mem'⟩) ∧
      ∀ x < used, mem' x = mem x := by
  induction hlen : content.length using Nat.strongRecOn
    generalizing content used free filesize mem with
  | ind n ih =>
    subst hlen
    by_cases hfree : free = 0
    · refine ⟨mem, ?_, fun _ _ => rfl⟩
      rw [readLoop, if_pos hfree, hfree]
      rfl
    · obtain ⟨cnt, hpos, hroom, hle, hround⟩ :=
        readLoop_round used filesize mem hfree (show content.length ≠ 0 by omega)
      have hdrop : (content.drop cnt).length = content.length - cnt := List.length_drop
      obtain ⟨mem', hrest, hframe⟩ := ih _ (by omega) (content.drop cnt) (used + cnt)
        (free - cnt) (filesize + cnt) (put mem used (fun i => content.getD i 0) cnt)
        (by omega) rfl
      refine ⟨mem', ?_, ?_⟩
      · rw [hround, hrest, Nat.add_assoc, Nat.add_sub_cancel' hroom]
      · intro x hx
        rw [hframe x (by omega), put_outside _ _ (.inl hx)]

/-- The bytes of a file with inode `i` whose data start at `off`. -/
structure Stored (imem fmem : Nat → Byte) (i off : Nat) (f : File) : Prop where
  name : ∀ j < f.name.length + 1, imem (48 * i + j) = cstr f.name j
  offset : ∀ j < 8, imem (48 * i + 32 + j) = byteOf off j
  size : ∀ j < 8, imem (48 * i + 40 + j) = byteOf f.content.length j
  data : ∀ j < f.content.length, fmem (off + j) = f.content.getD j 0

/-- What both blocks hold after `slots` inodes were taken and `files` were added: once a
file was refused for its size, the data block is full and no file is added any more. -/
structure Laid (files : List File) (slots : Nat) (st : Blocks) : Prop where
  inodes : st.imem.used = 48 * slots ∧ st.imem.used + st.imem.free = imemBlockSize
  room : st.fmem.used + st.fmem.free = fmemBlockSize
  count : st.fileCnt = files.length ∧ files.length ≤ slots
  next : start files ≤ st.fmem.used ∧
    (st.fmem.free = 0 ∨ start files = st.fmem.used ∧ files.length = slots)
  stored : ∀ i f, files[i]? = some f → f.name.length ≤ 31 →
    Stored st.imem.mem st.fmem.mem i (start (files.take i)) f

theorem padded_bounds (n : Nat) : n ≤ padded n ∧ padded n < n + 4096 ∧ padded n % 4096 = 0 := by
  unfold padded
  omega

theorem start_append (files : List File) (f : File) :
    start (files ++ [f]) = start files + padded f.content.length := by
  simp [start]

theorem start_mod (files : List File) : start files % 4096 = 0 := by
  induction files with
  | nil => rfl
  | cons f files ih =>
    have h := (padded_bounds f.content.length).2.2
    simp only [start, List.map_cons, List.sum_cons] at ih ⊢
    omega

variable {f : File} {files : List File} {slots : Nat} {st : Blocks}

theorem start_take (h : files[i]? = some f) :
    start (files.take i) + padded f.content.length ≤ start files := by
  induction files generalizing i with
  | nil => cases h
  | cons g files ih =>
    cases i with
    | zero =>
      cases h
      simp [start]
    | succ i =>
      have hrest := ih h
      simp only [start, List.take_succ_cons, List.map_cons, List.sum_cons] at hrest ⊢
      omega

theorem Stored.frame {imem' fmem' : Nat → Byte} {off : Nat} (h : Stored imem fmem i off f)
    (hname : f.name.length ≤ 31) (himem : ∀ x < 48 * (i + 1), imem' x = imem x)
    (hfmem : ∀ x < off + f.content.length, fmem' x = fmem x) :
    Stored imem' fmem' i off f where
  name j hj := (himem _ (by omega)).trans (h.name j hj)
  offset j hj := (himem _ (by omega)).trans (h.offset j hj)
  size j hj := (himem _ (by omega)).trans (h.size j hj)
  data j hj := (hfmem _ (by omega)).trans (h.data j hj)

theorem Laid.frame (h : Laid files slots st) (himem : ∀ x < st.imem.used, imem x = st.imem.mem x)
    (hfmem : ∀ x < st.fmem.used, fmem x = st.fmem.mem x) (hf : files[i]? = some f)
    (hname : f.name.length ≤ 31) : Stored imem fmem i (start (files.take i)) f := by
  have hi : i < files.length := (List.getElem?_eq_some_iff.1 hf).1
  have hused := h.inodes.1
  have hcount := h.count.2
  have hnext := h.next.1
  have hdata := start_take hf
  have hpad := padded_bounds f.content.length
  exact (h.stored i f hf hname).frame hname (fun x hx => himem x (by omega))
    fun x hx => hfmem x (by omega)

theorem alignUp_padded {n : Nat} (hn : n < 2 ^ 32) : alignUp n 4096 = padded n :=
  alignUp_page (by omega)

/-- The padding fits: the block is whole pages, and so is what was used before. -/
theorem pad_spec {used free len : Nat} (mem : Nat → Byte) (hused : used % 4096 = 0)
    (hsum : used + free = 67108864) (hfit : len < free) :
    ∃ mem', pad ⟨used + len, free - len, mem⟩ len =
        ⟨used + padded len, free - padded len, mem'⟩ ∧ ∀ x < used + len, mem' x = mem x := by
  obtain ⟨hle, hlt, hmod⟩ := padded_bounds len
  unfold pad
  simp only [alignUp_padded (show len < 2 ^ 32 by omega)]
  split
  · have hfree : u64 ((free - len : Nat) - (padded len - len : Nat)) = free - padded len := by
      unfold u64
      omega
    refine ⟨put mem (used + len) (fun _ => 0) (padded len - len), ?_,
      fun x hx => put_outside _ _ (.inl hx)⟩
    rw [hfree, Nat.add_assoc, Nat.add_sub_cancel' hle]
  · have heq : padded len = len := by omega
    exact ⟨mem, by rw [heq], fun _ _ => rfl⟩

theorem addFileFd_none (name content : List Byte)
    (hinode : ¬ st.imem.free < inodeSize) (hfull : st.fmem.free ≤ content.length) :
    ∃ imem fmem, addFileFd name content st = (-enomem, ⟨⟨st.imem.used + 48, st.imem.free - 48,
        imem⟩, ⟨st.fmem.used + st.fmem.free, 0, fmem⟩, st.fileCnt⟩) ∧
      (∀ x < st.imem.used, imem x = st.imem.mem x) ∧
      ∀ x < st.fmem.used, fmem x = st.fmem.mem x := by
  obtain ⟨mem, hloop, hframe⟩ :=
    readLoop_none content st.fmem.used st.fmem.free 0 st.fmem.mem hfull
  refine ⟨put (put st.imem.mem (st.imem.used + 32) (byteOf st.fmem.used) 8) st.imem.used
    (cstr name) (name.length + 1), mem, ?_, ?_, hframe⟩
  · rw [addFileFd, if_neg hinode, hloop]
    rfl
  · intro x hx
    rw [put_outside _ _ (.inl hx), put_outside _ _ (.inl (by omega))]

theorem addFileFd_some (name : List Byte) (hinode : ¬ st.imem.free < inodeSize)
    (hused : st.fmem.used % 4096 = 0) (hsum : st.fmem.used + st.fmem.free = 67108864)
    (hslots : st.imem.used = 48 * slots) (hfit : content.length < st.fmem.free) :
    ∃ imem fmem, addFileFd name content st = (0, ⟨⟨st.imem.used + 48, st.imem.free - 48, imem⟩,
        ⟨st.fmem.used + padded content.length, st.fmem.free - padded content.length, fmem⟩,
        st.fileCnt + 1⟩) ∧
      (∀ x < st.imem.used, imem x = st.imem.mem x) ∧
      (∀ x < st.fmem.used, fmem x = st.fmem.mem x) ∧
      (name.length ≤ 31 → Stored imem fmem slots st.fmem.used ⟨name, content⟩) := by
  obtain ⟨mem, hloop, hdata, hframe⟩ :=
    readLoop_some content st.fmem.used st.fmem.free 0 st.fmem.mem hfit
  obtain ⟨mem', hpad, hkeep⟩ := pad_spec mem hused hsum hfit
  rw [Nat.zero_add] at hloop
  refine ⟨put (put (put st.imem.mem (st.imem.used + 32) (byteOf st.fmem.used) 8) st.imem.used
    (cstr name) (name.length + 1)) (st.imem.used + 40) (byteOf content.length) 8, mem', ?_, ?_,
    ?_, ?_⟩
  · rw [addFileFd, if_neg hinode, hloop, ← hpad]
    rfl
  · intro x hx
    rw [put_outside _ _ (.inl (by omega)), put_outside _ _ (.inl hx),
      put_outside _ _ (.inl (by omega))]
  · intro x hx
    rw [hkeep x (by omega), hframe x hx]
  · intro hname
    rw [hslots]
    constructor
    · intro j hj
      have hlen : j < name.length + 1 := hj
      rw [put_outside _ _ (.inl (by omega)), put_inside _ _ _ hlen]
    · intro j hj
      rw [put_outside _ _ (.inl (by omega)), put_outside _ _ (.inr (by omega)),
        put_inside _ _ _ hj]
    · intro j hj
      rw [put_inside _ _ _ hj]
    · intro j hj
      have hlen : j < content.length := hj
      rw [hkeep _ (by omega), hdata j hlen]

/-- The files stored so far and the new one, over blocks that were written behind. -/
theorem Laid.append (h : Laid files slots st) (himem : ∀ x < st.imem.used, imem x = st.imem.mem x)
    (hfmem : ∀ x < st.fmem.used, fmem x = st.fmem.mem x) {new : File}
    (hnew : new.name.length ≤ 31 → Stored imem fmem files.length (start files) new)
    (hf : (files ++ [new])[i]? = some f) (hname : f.name.length ≤ 31) :
    Stored imem fmem i (start ((files ++ [new]).take i)) f := by
  rw [List.getElem?_append] at hf
  split at hf
  · rename_i hi
    rw [List.take_append_of_le_length (by omega)]
    exact h.frame himem hfmem hf hname
  · obtain ⟨hlast, hval⟩ := List.getElem?_eq_some_iff.1 hf
    have hidx : i = files.length := by
      rw [List.length_singleton] at hlast
      omega
    subst hidx
    rw [List.take_left]
    simp only [Nat.sub_self, List.getElem_cons_zero] at hval
    subst hval
    exact hnew hname

/-- The files and inodes after one more file. -/
theorem addFileFd_laid (h : Laid files slots st) (name content : List Byte) :
    Laid (files ++ if (addFileFd name content st).1 = 0 then [⟨name, content⟩] else [])
      (min (slots + 1) maxSlots) (addFileFd name content st).2 := by
  obtain ⟨himem, hisum⟩ := h.inodes
  have hfsum := h.room
  obtain ⟨hcnt, hle⟩ := h.count
  obtain ⟨hstart, hnext⟩ := h.next
  unfold imemBlockSize at hisum
  unfold fmemBlockSize at hfsum
  by_cases hfull : st.imem.free < inodeSize
  · have hslots : min (slots + 1) maxSlots = slots := by
      unfold maxSlots inodeSize at *
      omega
    have hret : addFileFd name content st = (-1, st) := if_pos hfull
    rw [hret, hslots]
    simpa using h
  · have hslots : min (slots + 1) maxSlots = slots + 1 := by
      unfold maxSlots inodeSize at *
      omega
    rw [hslots]
    by_cases hfit : content.length < st.fmem.free
    · obtain ⟨hs, hl⟩ : start files = st.fmem.used ∧ files.length = slots := by omega
      obtain ⟨imem, fmem, hret, hiframe, hfframe, hnew⟩ :=
        addFileFd_some name hfull (hs ▸ start_mod files) hfsum himem hfit
      have hpad := padded_bounds content.length
      have hmod := start_mod files
      rw [hret]
      refine ⟨⟨by simp only; omega, ?_⟩, ?_, ⟨?_, ?_⟩, ⟨?_, .inr ⟨?_, ?_⟩⟩, ?_⟩
      · unfold imemBlockSize inodeSize at *
        simp only
        omega
      · unfold fmemBlockSize
        simp only
        omega
      · simp [hcnt]
      · simp [hl]
      · simp [start_append, hs]
      · simp [start_append, hs]
      · simp [hl]
      · intro i f hget hname
        simp only [if_true] at hget ⊢
        exact h.append hiframe hfframe (by rwa [hs, hl]) hget hname
    · obtain ⟨imem, fmem, hret, hiframe, hfframe⟩ :=
        addFileFd_none _ _ hfull (Nat.le_of_not_lt hfit)
      have hneg : -enomem ≠ 0 := by decide
      rw [hret]
      simp only [if_neg hneg, List.append_nil]
      refine ⟨⟨by simp only; omega, ?_⟩, hfsum, ⟨hcnt, by omega⟩, ⟨?_, .inl rfl⟩,
        fun i f hf hname => h.frame hiframe hfframe hf hname⟩
      · unfold imemBlockSize inodeSize at *
        simp only
        omega
      · simp only
        omega

/-! ## The whole directory -/

/-- The entries that reach `__add_file`. -/
def attempts (dir : List Byte) (entries : List Dirent) : Nat :=
  entries.countP fun d => !skip dir d && d.content.isSome

theorem addFile_laid {st' : Blocks} {path : List Byte} {content : Option (List Byte)} {ret : Int}
    (h : Laid files slots st) (hslots : slots ≤ maxSlots)
    (hadd : addFile path content st = .ok (ret, st')) :
    Laid (files ++ if ret = 0 then [⟨path.drop cleanPrefix.length, content.getD []⟩] else [])
      (min (slots + if content.isSome then 1 else 0) maxSlots) st' := by
  cases content with
  | none =>
    cases hadd
    simpa [Nat.min_eq_left hslots] using h
  | some content =>
    obtain ⟨name, hname, hfd⟩ := Lib.Machine.ok_of_bind hadd
    unfold cleanFileName at hname
    split at hname
    · cases hname
      have hret := Except.ok.inj hfd
      have hlaid := addFileFd_laid h (path.drop cleanPrefix.length) content
      rwa [hret] at hlaid
    · cases hname

theorem addEntries_laid {dir : List Byte} {entries : List Dirent} {st' : Blocks}
    (h : Laid files slots st) (hslots : slots ≤ maxSlots)
    (hrun : addEntries dir entries st = .ok st') :
    Laid (files ++ added dir entries st) (min (slots + attempts dir entries) maxSlots) st' := by
  induction entries generalizing files slots st with
  | nil =>
    cases hrun
    simpa [added, attempts, Nat.min_eq_left hslots] using h
  | cons d rest ih =>
    have hcons : attempts dir (d :: rest) = attempts dir rest +
        if (!skip dir d && d.content.isSome) = true then 1 else 0 := List.countP_cons
    rw [addEntries] at hrun
    rw [added, hcons]
    cases hskip : skip dir d with
    | true =>
      rw [hskip] at hrun
      simpa using ih h hslots hrun
    | false =>
      rw [hskip, if_neg Bool.false_ne_true] at hrun
      split at hrun
      · cases hrun
      · obtain ⟨⟨ret, mid⟩, hadd, hrest⟩ := Lib.Machine.ok_of_bind hrun
        have hmid := ih (addFile_laid h hslots hadd) (Nat.min_le_right ..) hrest
        have hcount : min (min (slots + if d.content.isSome then 1 else 0) maxSlots +
            attempts dir rest) maxSlots = min (slots + (attempts dir rest +
              if d.content.isSome then 1 else 0)) maxSlots := by
          split <;> omega
        simp only [hadd, Bool.not_false, Bool.true_and, Bool.false_eq_true, if_false]
        rw [← List.append_assoc]
        exact hcount ▸ hmid

theorem memBlockInit_laid (imem fmem : Nat → Byte) : Laid [] 0 (memBlockInit imem fmem) where
  inodes := ⟨rfl, Nat.zero_add _⟩
  room := Nat.zero_add _
  count := ⟨rfl, Nat.le_refl _⟩
  next := ⟨Nat.le_refl _, .inr ⟨rfl, rfl⟩⟩
  stored i f h := by cases h

/-! ## The image in memory -/

/-- The ramdisk once the image has been copied from flash. -/
abbrev copied (st : Blocks) (old mem : Nat → Byte) : Nat → Byte :=
  ramdiskCopyFromFlash (packRamdisk st old) mem

section Image
variable {files : List File} {slots : Nat} {st : Blocks} (h : Laid files slots st)
  (hslots : slots ≤ maxSlots) (old mem : Nat → Byte)
include h hslots

theorem Laid.dataOffset_eq : dataOffset st = padded (48 + 48 * slots) := by
  have hinodes := h.inodes.1
  unfold maxSlots at hslots
  rw [dataOffset, hinodes, inodeOffset_eq]
  exact alignUp_padded (by omega)

theorem Laid.disk_eq {x : Nat} (hx : x < ramdiskSize) (hdata : x < padded (48 + 48 * slots)) :
    copied st old mem x =
      put (put (put old 0 (cstr ramdiskMagic) 16) 16 (superblk st) 32) 48 st.imem.mem
        (48 * slots) x := by
  rw [copied, ramdiskCopyFromFlash, if_pos hx, packRamdisk,
    put_outside _ _ (.inl (h.dataOffset_eq hslots ▸ hdata)), h.inodes.1]
  rfl

theorem Laid.disk_magic (hi : i < 16) :
    copied st old mem i = cstr ramdiskMagic i := by
  have hpad := padded_bounds (48 + 48 * slots)
  rw [h.disk_eq hslots old mem (by unfold ramdiskSize; omega) (by omega),
    put_outside _ _ (.inl (by omega)), put_outside _ _ (.inl hi)]
  have hput := put_inside old 0 (cstr ramdiskMagic) hi
  rwa [Nat.zero_add] at hput

theorem Laid.disk_sb (hi : i < 32) :
    copied st old mem (16 + i) = superblk st i := by
  have hpad := padded_bounds (48 + 48 * slots)
  rw [h.disk_eq hslots old mem (by unfold ramdiskSize; omega) (by omega),
    put_outside _ _ (.inl (by omega)), put_inside _ _ _ hi]

theorem Laid.disk_inode (hi : i < 48 * slots) (hin : 48 + i < ramdiskSize) :
    copied st old mem (48 + i) = st.imem.mem i := by
  have hpad := padded_bounds (48 + 48 * slots)
  rw [h.disk_eq hslots old mem hin (by omega), put_inside _ _ _ hi]

theorem Laid.disk_data (hi : i < st.fmem.used) (hin : padded (48 + 48 * slots) + i < ramdiskSize) :
    copied st old mem (padded (48 + 48 * slots) + i) =
      st.fmem.mem i := by
  rw [copied, ramdiskCopyFromFlash, if_pos hin, packRamdisk, h.dataOffset_eq hslots,
    put_inside _ _ _ hi]

theorem Laid.sb_number {a n v : Nat} (ha : a + n ≤ 32) (hv : v < 256 ^ n)
    (hsb : ∀ i < n, superblk st (a + i) = byteOf v i) :
    ofBytes (view (copied st old mem) (16 + a)) n = v := by
  rw [ofBytes_congr fun i hi => ?_, ofBytes_byteOf, Nat.mod_eq_of_lt hv]
  rw [view, Nat.add_assoc, h.disk_sb hslots old mem (by omega), hsb i hi]

theorem Laid.sb_eq : sb (copied st old mem) =
    ⟨files.length, 48, padded (48 + 48 * slots)⟩ := by
  obtain ⟨hcnt, hle⟩ := h.count
  have hpad := padded_bounds (48 + 48 * slots)
  have hmax : slots ≤ 699050 := hslots
  have hfileCnt := h.sb_number hslots old mem (show 0 + 4 ≤ 32 by decide)
    (show files.length < 256 ^ 4 by omega)
    (by intro i hi; rw [Nat.zero_add, superblk, if_pos hi, hcnt])
  have hinode := h.sb_number hslots old mem (show 8 + 8 ≤ 32 by decide)
    (show 48 < 256 ^ 8 by decide) (by
      intro i hi
      rw [superblk, if_neg (by omega), if_neg (by omega), if_pos (by omega),
        Nat.add_sub_cancel_left, inodeOffset_eq])
  have hdata := h.sb_number hslots old mem (show 16 + 8 ≤ 32 by decide)
    (show padded (48 + 48 * slots) < 256 ^ 8 by omega) (by
      intro i hi
      rw [superblk, if_neg (by omega), if_neg (by omega), if_neg (by omega), if_pos (by omega),
        Nat.add_sub_cancel_left, h.dataOffset_eq hslots])
  rw [sb, hfileCnt, hinode, hdata]

/-- Names that a directory can hold, in the inodes of the image. -/
def Named (files : List File) : Prop :=
  (files.map File.name).Nodup ∧ ∀ f ∈ files, f.name.length ≤ 31 ∧ 0 ∉ f.name

/-- The file can be opened, and each read inside its content gives that content. -/
def Reads (disk : Nat → Byte) (f : File) : Prop :=
  ∃ inode, ramdiskOpen (some disk) (cstr f.name) = .ok inode ∧
    ∀ offset size, offset + size ≤ f.content.length →
      ∃ src, ramdiskRead disk inode size offset = ((size : Int), some src) ∧
        ∀ i < size, src i = f.content.getD (offset + i) 0

/-- The name of an inode, also of one whose numbers lie behind the copied part. -/
theorem Laid.strncmp_inode (hnames : Named files) (hf : files[i]? = some f) {name : List Byte}
    (hname : name.length ≤ 31) (hname0 : 0 ∉ name) :
    strncmp (view (copied st old mem) (48 + inodeSize * i)) (cstr name) 31 = 0 ↔ f.name = name := by
  obtain ⟨hlen, hnul⟩ := hnames.2 f (List.mem_of_getElem? hf)
  have hi := (List.getElem?_eq_some_iff.1 hf).1
  have hle := h.count.2
  have hmax : slots ≤ 699050 := hslots
  apply strncmp_names _ hlen hnul hname hname0
  intro j hj
  rw [view, inodeSize, Nat.add_assoc, h.disk_inode hslots old mem (by omega)
    (by unfold ramdiskSize; omega)]
  exact (h.stored i f hf hlen).name j hj

theorem Laid.open_eq (hnames : Named files) (hf : files[i]? = some f) :
    ramdiskOpen (some (copied st old mem)) (cstr f.name) = .ok (48 + inodeSize * i) := by
  obtain ⟨hi, hval⟩ := List.getElem?_eq_some_iff.1 hf
  obtain ⟨hlen, hnul⟩ := hnames.2 f (List.mem_of_getElem? hf)
  have hfind : ramdiskFind (copied st old mem) (cstr f.name) files.length 48 =
      some (48 + inodeSize * i) := by
    apply ramdiskFind_eq_some hi
    · exact (h.strncmp_inode hslots old mem hnames hf hlen hnul).2 rfl
    · intro j hj hmatch
      have hg : files[j]? = some files[j] := List.getElem?_eq_getElem (by omega)
      have hsame := (h.strncmp_inode hslots old mem hnames hg hlen hnul).1 hmatch
      have hne := List.pairwise_iff_getElem.1 hnames.1 j i (by simp; omega) (by simp; omega) hj
      simp [hsame, hval] at hne
  have hsb := h.sb_eq hslots old mem
  exact ramdiskOpen_eq (congrArg RamdiskSb.fileCnt hsb) (congrArg RamdiskSb.inodeOffset hsb) hfind

theorem Laid.inode_numbers (hf : files[i]? = some f) (hname : f.name.length ≤ 31)
    (hin : 48 + 48 * (i + 1) ≤ ramdiskSize) :
    fOffset (copied st old mem) (48 + inodeSize * i) = start (files.take i) ∧
      fSize (copied st old mem) (48 + inodeSize * i) = f.content.length := by
  have hi := (List.getElem?_eq_some_iff.1 hf).1
  have hle := h.count.2
  have hstored := h.stored i f hf hname
  have hdata := start_take hf
  have hpad := padded_bounds f.content.length
  have hroom := h.room
  unfold fmemBlockSize at hroom
  have hstart := h.next.1
  constructor
  · rw [fOffset, ofBytes_congr fun j hj => ?_, ofBytes_byteOf (start (files.take i)) 8,
      Nat.mod_eq_of_lt (by omega)]
    rw [view, inodeSize, Nat.add_assoc, Nat.add_assoc, h.disk_inode hslots old mem (by omega)
      (by omega), ← Nat.add_assoc, hstored.offset j hj]
  · rw [fSize, ofBytes_congr fun j hj => ?_, ofBytes_byteOf f.content.length 8,
      Nat.mod_eq_of_lt (by omega)]
    rw [view, inodeSize, Nat.add_assoc, Nat.add_assoc, h.disk_inode hslots old mem (by omega)
      (by omega), ← Nat.add_assoc, hstored.size j hj]

theorem Laid.reads_of_inside (hnames : Named files) (hf : files[i]? = some f)
    (hin : padded (48 + 48 * slots) + start (files.take i) + f.content.length ≤ ramdiskSize) :
    Reads (copied st old mem) f := by
  have hi := (List.getElem?_eq_some_iff.1 hf).1
  have hle := h.count.2
  have hpad := padded_bounds (48 + 48 * slots)
  have hlen := (hnames.2 f (List.mem_of_getElem? hf)).1
  have hdata := start_take hf
  have hpadf := padded_bounds f.content.length
  have hstart := h.next.1
  obtain ⟨hoff, hsize⟩ := h.inode_numbers hslots old mem hf hlen (by omega)
  refine ⟨_, h.open_eq hslots old mem hnames hf, fun offset size hle => ?_⟩
  refine ⟨_, ramdiskRead_of_le (hsize ▸ hle) (by unfold ramdiskSize at hin; omega), ?_⟩
  intro j hj
  rw [fileByte, h.sb_eq hslots, hoff, Nat.add_assoc, h.disk_data hslots old mem (by omega)
    (by omega)]
  exact (h.stored i f hf hlen).data (offset + j) (by omega)

theorem Laid.reads_empty (hnames : Named files) (hf : files[i]? = some f)
    (hempty : f.content = []) :
    Reads (copied st old mem) f := by
  refine ⟨_, h.open_eq hslots old mem hnames hf, fun offset size hle => ?_⟩
  rw [hempty, List.length_nil] at hle
  obtain ⟨rfl, rfl⟩ : offset = 0 ∧ size = 0 := by omega
  refine ⟨fun j => fileByte (copied st old mem) (48 + inodeSize * i) (0 + j), ?_,
    fun j hj => by omega⟩
  have hzero : u64 ((0 : Nat) + (0 : Nat)) = 0 := by decide
  rw [ramdiskRead, if_neg (Nat.not_lt_zero _), hzero, if_neg (Nat.not_lt_zero _)]
  rfl

/-- Behind the copied part a read returns what memory held there. -/
theorem Laid.read_behind {offset : Nat} (hf : files[i]? = some f) (hlen : f.name.length ≤ 31)
    (hout : ramdiskSize ≤ padded (48 + 48 * slots) + start (files.take i) + offset)
    {src : Nat → Byte} (hread : ramdiskRead (copied st old mem) (48 + inodeSize * i) 1 offset =
      (1, some src)) : ∃ x, src 0 = mem x := by
  have hi := (List.getElem?_eq_some_iff.1 hf).1
  have hle := h.count.2
  have hpad := padded_bounds (48 + 48 * slots)
  have hsrc : src 0 = fileByte (copied st old mem) (48 + inodeSize * i) offset := by
    unfold ramdiskRead at hread
    split at hread
    · cases hread
    · split at hread
      · cases hread
      · rw [← Option.some.inj (Prod.mk.inj hread).2]
        rfl
  -- An inode that was not copied whole has no data in the copied part either.
  have hbehind : ramdiskSize ≤ padded (48 + 48 * slots) +
      fOffset (copied st old mem) (48 + inodeSize * i) + offset := by
    by_cases hin : 48 + 48 * (i + 1) ≤ ramdiskSize
    · rw [(h.inode_numbers hslots old mem hf hlen hin).1]
      omega
    · omega
  rw [hsrc, fileByte, h.sb_eq hslots, copied, ramdiskCopyFromFlash, if_neg (Nat.not_lt.2 hbehind)]
  exact ⟨_, rfl⟩

end Image

/-! ## The round trip -/

def Decodes (r : Int × Option (Nat → Byte)) (files : List File) : Prop :=
  ∃ disk, r = (0, some disk) ∧ ∀ f ∈ files, Reads disk f

def Inside (files : List File) (slots : Nat) : Prop :=
  ∀ i f, files[i]? = some f → f.content ≠ [] →
    padded (48 + 48 * slots) + start (files.take i) + f.content.length ≤ ramdiskSize

section Image
variable {files : List File} {slots : Nat} {st : Blocks} (h : Laid files slots st)
  (hslots : slots ≤ maxSlots) (old mem : Nat → Byte)
include h hslots

theorem Laid.strncmp_magic : strncmp (copied st old mem) (cstr ramdiskMagic) 16 = 0 :=
  (strncmp_eq_zero_iff _ _ _).2 fun _ hi _ => h.disk_magic hslots old mem hi

theorem Laid.initRamdisk_eq : initRamdisk (packRamdisk st old) mem =
    (0, some (copied st old mem)) := by
  have hmagic := h.strncmp_magic hslots old mem
  have hbase : isAligned (ptov ramdiskBase) 4096 = true := by decide
  simp [initRamdisk, checkMagic, hmagic, hbase]

theorem Laid.ramdiskInit_eq :
    ramdiskInit (copied st old mem) sysProcRamdiskBase = (0, some (copied st old mem)) := by
  have hmagic := h.strncmp_magic hslots old mem
  have hbase : isAligned sysProcRamdiskBase 4096 = true := by decide
  simp [ramdiskInit, checkMagic, hmagic, hbase]

end Image

/-- **The round trip** through the image of a directory, for both readers. -/
theorem ramdisk_round_trip_iff (dir : List Byte) (entries : List Dirent)
    (imem fmem old : Nat → Byte) {st : Blocks}
    (hmake : makeRamdiskDir dir entries (memBlockInit imem fmem) = .ok st)
    (hnames : Named (added (dirName dir) entries (memBlockInit imem fmem))) :
    (∀ mem,
      Decodes (initRamdisk (packRamdisk st old) mem)
        (added (dirName dir) entries (memBlockInit imem fmem)) ∧
      Decodes (ramdiskInit (ramdiskCopyFromFlash (packRamdisk st old) mem) sysProcRamdiskBase)
        (added (dirName dir) entries (memBlockInit imem fmem))) ↔
      Inside (added (dirName dir) entries (memBlockInit imem fmem))
        (min (attempts (dirName dir) entries) maxSlots) := by
  have h := addEntries_laid (memBlockInit_laid imem fmem) (Nat.zero_le _) hmake
  rw [List.nil_append, Nat.zero_add] at h
  have hslots := Nat.min_le_right (attempts (dirName dir) entries) maxSlots
  generalize min (attempts (dirName dir) entries) maxSlots = slots at h hslots ⊢
  generalize added (dirName dir) entries (memBlockInit imem fmem) = files at h hnames ⊢
  constructor
  · intro hall i f hf hne
    apply Nat.le_of_not_lt
    intro hout
    -- Memory that holds another byte than the last one of the file.
    obtain ⟨disk, hdisk, hreads⟩ := (hall fun _ => f.content.getD (f.content.length - 1) 0 + 1).1
    rw [h.initRamdisk_eq hslots] at hdisk
    cases hdisk
    obtain ⟨inode, hopen, hread⟩ := hreads f (List.mem_of_getElem? hf)
    rw [h.open_eq hslots _ _ hnames hf] at hopen
    cases hopen
    have hpos := List.length_pos_iff.2 hne
    obtain ⟨src, hsrc, hbyte⟩ := hread (f.content.length - 1) 1 (by omega)
    obtain ⟨x, hx⟩ := h.read_behind hslots _ _ hf (hnames.2 f (List.mem_of_getElem? hf)).1
      (by omega) hsrc
    have hsame := (hbyte 0 (by omega)).symm.trans hx
    rw [Nat.add_zero] at hsame
    have hne' : ∀ b : Byte, b ≠ b + 1 := by
      intro b
      bv_omega
    exact hne' _ hsame
  · intro hinside mem
    have hall : ∀ f ∈ files, Reads (copied st old mem) f := by
      intro f hf
      obtain ⟨i, hi⟩ := List.getElem?_of_mem hf
      by_cases hempty : f.content = []
      · exact h.reads_empty hslots old mem hnames hi hempty
      · exact h.reads_of_inside hslots old mem hnames hi (hinside i f hi hempty)
    exact ⟨⟨_, h.initRamdisk_eq hslots old mem, hall⟩, ⟨_, h.ramdiskInit_eq hslots old mem, hall⟩⟩

/-- The directory `out/ramdisk` with one file `a`, and blocks of zeroes. -/
def outRamdisk : List Byte := cleanPrefix.dropLast

def oneFile (content : List Byte) : List Dirent := [⟨[97], 8, some content⟩]

def zeroBlocks : Blocks := memBlockInit (fun _ => 0) fun _ => 0

theorem addEntries_oneFile (hfit : content.length < 67108864) :
    ∃ st, makeRamdiskDir outRamdisk (oneFile content) zeroBlocks = .ok st ∧
      added (dirName outRamdisk) (oneFile content) zeroBlocks = [⟨[97], content⟩] ∧
      Laid [⟨[97], content⟩] 1 st := by
  have hinode : ¬ zeroBlocks.imem.free < inodeSize := by decide
  obtain ⟨imem, fmem, hfd, -⟩ := addFileFd_some [97] hinode rfl (Nat.zero_add _)
    (Nat.mul_zero 48).symm hfit
  have hskip : ¬ skip (dirName outRamdisk) ⟨[97], 8, some content⟩ = true := Bool.false_ne_true
  have hclean : cleanFileName (path (dirName outRamdisk) ⟨[97], 8, some content⟩) = .ok [97] := rfl
  have hadd : addFile (path (dirName outRamdisk) ⟨[97], 8, some content⟩) (some content)
      zeroBlocks = .ok (addFileFd [97] content zeroBlocks) := by
    simp only [addFile, hclean]
    rfl
  rw [hfd] at hadd
  have hpath : ¬ (path (dirName outRamdisk) ⟨[97], 8, some content⟩).length + 1 > 256 :=
    (by decide : ¬ 14 > 256)
  obtain ⟨st, hmake⟩ : ∃ st, makeRamdiskDir outRamdisk (oneFile content) zeroBlocks = .ok st := by
    rw [makeRamdiskDir, oneFile, addEntries, if_neg hskip, if_neg hpath, hadd]
    exact ⟨_, rfl⟩
  have hadded : added (dirName outRamdisk) (oneFile content) zeroBlocks = [⟨[97], content⟩] := by
    rw [oneFile, added, if_neg hskip]
    simp only [hadd]
    rfl
  have h := addEntries_laid (memBlockInit_laid _ _) (Nat.zero_le _) hmake
  exact ⟨st, hmake, hadded, hadded ▸ h⟩

theorem ramdisk_round_trip_iff_small_file :
    ∃ st, makeRamdiskDir outRamdisk (oneFile [1, 2, 3]) zeroBlocks = .ok st ∧
      ∀ mem, Decodes (initRamdisk (packRamdisk st fun _ => 0) mem) [⟨[97], [1, 2, 3]⟩] := by
  obtain ⟨st, hmake, hadded, -⟩ := addEntries_oneFile (show [1, 2, 3].length < 67108864 by simp)
  have hround := ramdisk_round_trip_iff outRamdisk _ _ _ (fun _ => 0) hmake
  unfold zeroBlocks at hadded
  rw [hadded] at hround
  refine ⟨st, hmake, fun mem => ((hround ⟨by simp, by simp⟩).2 ?_ mem).1⟩
  intro i f hf hne
  cases i with
  | zero =>
    cases hf
    decide
  | succ i => cases hf

def bigFile : List Byte := List.replicate 34603008 1

/-- The last byte of the file is packed behind the 32 MiB that are copied. -/
theorem ramdisk_drops_end :
    ∃ st disk src, makeRamdiskDir outRamdisk (oneFile bigFile) zeroBlocks = .ok st ∧
      added (dirName outRamdisk) (oneFile bigFile) zeroBlocks = [⟨[97], bigFile⟩] ∧
      initRamdisk (packRamdisk st fun _ => 0) (fun _ => 0) = (0, some disk) ∧
      ramdiskOpen (some disk) (cstr [97]) = .ok 48 ∧
      ramdiskRead disk 48 1 34603007 = (1, some src) ∧
      src 0 = 0 ∧ bigFile.getD 34603007 0 = 1 := by
  have hlen : bigFile.length = 34603008 := List.length_replicate
  have hbig : bigFile.length < 67108864 := by omega
  obtain ⟨st, hmake, hadded, h⟩ := addEntries_oneFile hbig
  have hslots : 1 ≤ maxSlots := by decide
  have hnames : Named [⟨[97], bigFile⟩] := ⟨by simp, by simp⟩
  have hf : [File.mk [97] bigFile][0]? = some ⟨[97], bigFile⟩ := rfl
  have hsize := (h.inode_numbers hslots (fun _ => 0) (fun _ => 0) hf (by decide) (by decide)).2
  have hread := ramdiskRead_of_le (by rw [hsize]; simp only [hlen]; decide : 34603007 + 1 ≤ _)
    (by rw [hsize]; simp only [hlen]; decide)
  obtain ⟨x, hx⟩ := h.read_behind hslots (fun _ => 0) (fun _ => 0) hf (by decide)
    (by decide) hread
  refine ⟨st, _, _, hmake, hadded, h.initRamdisk_eq hslots _ _, h.open_eq hslots _ _ hnames hf,
    hread, hx, ?_⟩
  rw [List.getD_eq_getElem?_getD, bigFile, List.getElem?_replicate, if_pos (by decide)]
  rfl

end SpringOs.Mkrmd
