import SpringOs.Mkrmd

/-!
The two modes of `mkrmd`: a list of files on the command line, and a directory.

* **`makeRamdiskFiles`**: the loop of the file mode, which stops at the first failure;
* `copiedFiles`, `copiedEntries`: the names that reach the `strcpy` of `__add_file`;
* `addEntries_invariant`, `makeRamdiskFiles_invariant`: what adding one file keeps, both modes
  keep;
* `reached`: the files whose inode the file mode fills in, from their sizes alone;
* `mkrmd_modes_iff`: the modes agree, or the file mode reports a failure, and no name leaves
  its field, exactly if the names of these files have at most 31 characters. The directory
  mode checks the length of a name and no result, the file mode checks results and no name.
-/

namespace SpringOs.Mkrmd
open Kernel Lib.Word Lib.Bytes Ramdisk

/-! ## The modes -/

/-- `make_ramdisk_files`, on paths and what can be read there. -/
def makeRamdiskFiles : List (List Byte × Option (List Byte)) → Blocks → Except Fault (Int × Blocks)
  | [], st => .ok (0, st)
  | f :: rest, st => do
    let (ret, st) ← addFile f.1 f.2 st
    if ret ≠ 0 then .ok (-enoent, st) else makeRamdiskFiles rest st

def fullPaths (files : List Dirent) : List (List Byte × Option (List Byte)) :=
  files.map fun d => (path outRamdisk d, d.content)

/-- The name that `add_file` passes to `strcpy`, if it comes so far. -/
def copiedName (path : List Byte) (content : Option (List Byte)) (st : Blocks) :
    List (List Byte) :=
  if content.isNone ∨ st.imem.free < inodeSize then [] else [path.drop cleanPrefix.length]

def copiedFiles : List (List Byte × Option (List Byte)) → Blocks → List (List Byte)
  | [], _ => []
  | f :: rest, st => copiedName f.1 f.2 st ++
      match addFile f.1 f.2 st with
      | .ok (ret, st') => if ret ≠ 0 then [] else copiedFiles rest st'
      | .error _ => []

def copiedEntries (dir : List Byte) : List Dirent → Blocks → List (List Byte)
  | [], _ => []
  | d :: rest, st =>
    if skip dir d then copiedEntries dir rest st
    else copiedName (path dir d) d.content st ++
      match addFile (path dir d) d.content st with
      | .ok (_, st') => copiedEntries dir rest st'
      | .error _ => []

/-! ## What should hold of them -/

def Regular (d : Dirent) : Prop := d.dType = 8 ∧ d.dName ≠ [46] ∧ d.dName ≠ [46, 46]

def toFile (d : Dirent) : File := ⟨d.dName, d.content.getD []⟩

/-- No name leaves its field, and the modes leave the same blocks with the inodes of the files,
or the file mode reports a failure. -/
def ModesAgree (dir : List Byte) (files : List Dirent) (st : Blocks) : Prop :=
  (∀ name ∈ copiedFiles (fullPaths files) st, name.length + 1 ≤ 32) ∧
  (∀ name ∈ copiedEntries (dirName dir) files st, name.length + 1 ≤ 32) ∧
  ∃ ret st₁ st₂, makeRamdiskFiles (fullPaths files) st = .ok (ret, st₁) ∧
    makeRamdiskDir dir files st = .ok st₂ ∧
    (ret ≠ 0 ∨ st₁ = st₂ ∧ ∀ i d, files[i]? = some d →
      Stored st₁.imem.mem st₁.fmem.mem i (start ((files.map toFile).take i)) (toFile d))

/-- The files whose inode the file mode fills in, with `slots` inodes and `room` bytes left: up
to the first one that cannot be opened, finds no inode, or fills the data block. -/
def reached : Nat → Nat → List Dirent → List Dirent
  | _, _, [] => []
  | slots, room, d :: rest =>
    match d.content with
    | none => []
    | some content =>
      if slots = 0 then []
      else if content.length < room then
        d :: reached (slots - 1) (room - padded content.length) rest
      else [d]

def AllFit : Nat → Nat → List Dirent → Prop
  | _, _, [] => True
  | slots, room, d :: rest =>
    ∃ content, d.content = some content ∧ 0 < slots ∧ content.length < room ∧
      AllFit (slots - 1) (room - padded content.length) rest

/-! ## One file -/

/-- There are `slots` inodes and `room` bytes left; what is used is whole inodes and pages. -/
structure Left (slots room : Nat) (st : Blocks) : Prop where
  imem_free : st.imem.free = 48 * slots + 32
  imem_used : ∃ k, st.imem.used = 48 * k
  fmem_free : st.fmem.free = room
  fmem_page : st.fmem.used % 4096 = 0
  fmem_sum : st.fmem.used + st.fmem.free = 67108864

theorem memBlockInit_left (imem fmem : Nat → Byte) :
    Left maxSlots fmemBlockSize (memBlockInit imem fmem) where
  imem_free := show imemBlockSize = 48 * maxSlots + 32 by decide
  imem_used := ⟨0, rfl⟩
  fmem_free := rfl
  fmem_page := rfl
  fmem_sum := show 0 + fmemBlockSize = 67108864 by decide

theorem path_eq (d : Dirent) : path outRamdisk d = cleanPrefix ++ d.dName := rfl

theorem path_drop (d : Dirent) : (path outRamdisk d).drop cleanPrefix.length = d.dName := by
  rw [path_eq, List.drop_left]

theorem addFile_path {d : Dirent} {content : List Byte} (h : d.content = some content)
    (st : Blocks) : addFile (path outRamdisk d) d.content st =
      .ok (addFileFd d.dName content st) := by
  have hclean : cleanFileName (path outRamdisk d) = .ok d.dName := by
    rw [cleanFileName, if_pos (by rw [path_eq]; exact List.isPrefixOf_iff_prefix.2 ⟨_, rfl⟩),
      path_drop]
  rw [h, addFile, hclean]
  rfl

theorem addFile_cases {slots room : Nat} {st : Blocks} (h : Left slots room st) (d : Dirent) :
    (∃ ret st', addFile (path outRamdisk d) d.content st = .ok (ret, st') ∧ ret ≠ 0 ∧
      st'.fileCnt = st.fileCnt ∧
      ¬ ∃ content, d.content = some content ∧ 0 < slots ∧ content.length < room) ∨
    ∃ content st', d.content = some content ∧ 0 < slots ∧ content.length < room ∧
      addFile (path outRamdisk d) d.content st = .ok (0, st') ∧
      st'.fileCnt = st.fileCnt + 1 ∧ Left (slots - 1) (room - padded content.length) st' := by
  cases hc : d.content with
  | none => exact .inl ⟨-1, st, rfl, by decide, rfl, by simp⟩
  | some content =>
    rw [← hc, addFile_path hc]
    have hfree := h.imem_free
    have hsize : inodeSize = 48 := rfl
    by_cases hslots : slots = 0
    · refine .inl ⟨-1, st, ?_, by decide, rfl, by simp [hslots]⟩
      rw [addFileFd, if_pos (by omega)]
    have hinode : ¬ st.imem.free < inodeSize := by omega
    by_cases hfit : content.length < room
    · obtain ⟨k, hk⟩ := h.imem_used
      obtain ⟨imem, fmem, hret, -, -, -⟩ := addFileFd_some d.dName hinode h.fmem_page h.fmem_sum hk
        (h.fmem_free ▸ hfit)
      have hpad := padded_bounds content.length
      have hpage := h.fmem_page
      have hsum := h.fmem_sum
      have hroom := h.fmem_free
      refine .inr ⟨content, _, hc, by omega, hfit, congrArg Except.ok hret, rfl, ?_⟩
      constructor
      case imem_free =>
        change st.imem.free - 48 = 48 * (slots - 1) + 32
        omega
      case imem_used => exact ⟨k + 1, by simp only; omega⟩
      case fmem_free =>
        change st.fmem.free - padded content.length = room - padded content.length
        rw [hroom]
      case fmem_page =>
        change (st.fmem.used + padded content.length) % 4096 = 0
        omega
      case fmem_sum =>
        change st.fmem.used + padded content.length + (st.fmem.free - padded content.length) = _
        omega
    · obtain ⟨imem, fmem, hret, -, -⟩ := addFileFd_none d.dName content hinode
        (by rw [h.fmem_free]; omega)
      refine .inl ⟨-enomem, _, congrArg Except.ok hret, by decide, rfl, ?_⟩
      rintro ⟨content', heq, -, hlt⟩
      rw [hc] at heq
      cases heq
      exact hfit hlt

/-! ## What adding a file keeps -/

def namedFiles (paths : List (List Byte × Option (List Byte))) : List File :=
  paths.map fun p => ⟨p.1.drop cleanPrefix.length, p.2.getD []⟩

section invariant
variable {P : List File → Blocks → Prop}

/-- Adding one file keeps `P`. -/
def Kept (P : List File → Blocks → Prop) : Prop :=
  ∀ files st path content ret st', P files st → addFile path content st = .ok (ret, st') →
    P (files ++ if ret = 0 then [⟨path.drop cleanPrefix.length, content.getD []⟩] else []) st'

theorem addEntries_invariant (hkept : Kept P) {dir : List Byte} {entries : List Dirent}
    {files : List File} {st st' : Blocks} (h : P files st)
    (hrun : addEntries dir entries st = .ok st') : P (files ++ added dir entries st) st' := by
  induction entries generalizing files st with
  | nil =>
    cases hrun
    simpa [added] using h
  | cons d rest ih =>
    rw [addEntries] at hrun
    rw [added]
    cases hskip : skip dir d with
    | true =>
      rw [hskip] at hrun
      exact ih h hrun
    | false =>
      rw [hskip, if_neg Bool.false_ne_true] at hrun
      split at hrun
      · cases hrun
      · obtain ⟨⟨ret, mid⟩, hadd, hrest⟩ := Lib.Machine.ok_of_bind hrun
        have hmid := ih (hkept _ _ _ _ _ _ h hadd) hrest
        simp only [hadd, Bool.false_eq_true, if_false]
        rwa [← List.append_assoc]

theorem makeRamdiskFiles_invariant (hkept : Kept P)
    {paths : List (List Byte × Option (List Byte))} {files : List File} {st st' : Blocks}
    (h : P files st) (hrun : makeRamdiskFiles paths st = .ok (0, st')) :
    P (files ++ namedFiles paths) st' := by
  induction paths generalizing files st with
  | nil =>
    cases hrun
    simpa [namedFiles] using h
  | cons p rest ih =>
    obtain ⟨⟨ret, mid⟩, hadd, hrest⟩ := Lib.Machine.ok_of_bind hrun
    simp only at hrest
    split at hrest
    · cases hrest
    · rename_i hret
      have hmid := hkept _ _ _ _ _ _ h hadd
      rw [if_pos (not_not.1 hret)] at hmid
      have hlast := ih hmid hrest
      rwa [List.append_assoc] at hlast

theorem laid_kept : Kept fun files st => ∃ slots ≤ maxSlots, Laid files slots st := by
  rintro files st path content ret st' ⟨slots, hslots, hlaid⟩ hadd
  exact ⟨_, Nat.min_le_right _ _, addFile_laid hlaid hslots hadd⟩

end invariant

/-! ## Whole lists -/

section lists
variable {slots room : Nat} {st st' : Blocks} {files : List Dirent} {d : Dirent}

theorem makeRamdiskFiles_stop {ret : Int}
    (hadd : addFile (path outRamdisk d) d.content st = .ok (ret, st')) (hret : ret ≠ 0)
    (rest : List Dirent) : makeRamdiskFiles (fullPaths (d :: rest)) st = .ok (-enoent, st') := by
  rw [fullPaths, List.map_cons, makeRamdiskFiles, hadd]
  exact if_pos hret

theorem makeRamdiskFiles_next (hadd : addFile (path outRamdisk d) d.content st = .ok (0, st'))
    (rest : List Dirent) :
    makeRamdiskFiles (fullPaths (d :: rest)) st = makeRamdiskFiles (fullPaths rest) st' := by
  rw [fullPaths, List.map_cons, makeRamdiskFiles, hadd]
  rfl

/-- The file mode returns 0 exactly if all files fit, and always returns. -/
theorem makeRamdiskFiles_cases (h : Left slots room st) (files : List Dirent) :
    (∃ ret st', makeRamdiskFiles (fullPaths files) st = .ok (ret, st') ∧ ret ≠ 0 ∧
      ¬ AllFit slots room files) ∨
    ∃ st', makeRamdiskFiles (fullPaths files) st = .ok (0, st') ∧ AllFit slots room files ∧
      st'.fileCnt = st.fileCnt + files.length := by
  induction files generalizing slots room st with
  | nil => exact .inr ⟨st, rfl, trivial, rfl⟩
  | cons d rest ih =>
    rcases addFile_cases h d with ⟨ret, st', hadd, hret, -, hnot⟩ |
      ⟨content, st', hc, hpos, hlt, hadd, hcnt, hleft⟩
    · refine .inl ⟨_, _, makeRamdiskFiles_stop hadd hret rest, by decide, ?_⟩
      rintro ⟨content, hc, hpos, hlt, -⟩
      exact hnot ⟨content, hc, hpos, hlt⟩
    · rw [makeRamdiskFiles_next hadd]
      rcases ih hleft with ⟨ret, st'', hrun, hret, hnot⟩ | ⟨st'', hrun, hfit, hcnt'⟩
      · refine .inl ⟨ret, st'', hrun, hret, ?_⟩
        rintro ⟨content', hc', -, -, hfit⟩
        rw [hc] at hc'
        cases hc'
        exact hnot hfit
      · refine .inr ⟨st'', hrun, ⟨content, hc, hpos, hlt, hfit⟩, ?_⟩
        rw [hcnt', hcnt, List.length_cons]
        omega

/-- The names that are copied are those of the files reached. -/
theorem copiedFiles_eq (h : Left slots room st) :
    copiedFiles (fullPaths files) st = (reached slots room files).map Dirent.dName := by
  induction files generalizing slots room st with
  | nil => simp [fullPaths, copiedFiles, reached]
  | cons d rest ih =>
    have hfree := h.imem_free
    have hsize : inodeSize = 48 := rfl
    rw [fullPaths, List.map_cons, copiedFiles, copiedName, path_drop]
    rcases addFile_cases h d with ⟨ret, st', hadd, hret, -, hnot⟩ |
      ⟨content, st', hc, hpos, hlt, hadd, -, hleft⟩
    · rw [hadd]
      simp only [if_pos hret, List.append_nil]
      cases hc : d.content with
      | none => simp [reached, hc]
      | some content =>
        by_cases hslots : slots = 0
        · simp [reached, hc, hsize, hfree, hslots]
        · have hfull : ¬ content.length < room := fun hlt => hnot ⟨content, hc, by omega, hlt⟩
          have hcopy : ¬ ((some content).isNone = true ∨ st.imem.free < inodeSize) := by
            simp
            omega
          rw [if_neg hcopy]
          simp [reached, hc, hslots, hfull]
    · have hcopy : ¬ (d.content.isNone = true ∨ st.imem.free < inodeSize) := by
        simp [hc]
        omega
      have hrest : copiedFiles (fullPaths rest) st' = _ := ih hleft
      rw [if_neg hcopy, hadd]
      simp only [reached, hc, hlt, Nat.ne_of_gt hpos, if_true, if_false, List.map_cons, ← hrest]
      rfl

theorem skip_iff (h : Regular d) : skip outRamdisk d = true ↔ 31 < d.dName.length := by
  have hdir : outRamdisk.length = 11 := rfl
  simp only [skip, h.1, h.2.1, h.2.2, hdir, Bool.or_eq_true, decide_eq_true_eq, beq_iff_eq,
    bne_self_eq_false, Bool.false_eq_true, false_or]
  omega

/-- The path of an entry that is not skipped fits in its buffer. -/
theorem addEntries_cons (hd : skip outRamdisk d = false) (rest : List Dirent) :
    addEntries outRamdisk (d :: rest) st =
      (addFile (path outRamdisk d) d.content st).bind fun x => addEntries outRamdisk rest x.2 := by
  have hlong : ¬ (path outRamdisk d).length + 1 > 256 := by
    have hdir : outRamdisk.length = 11 := rfl
    simp only [skip, Bool.or_eq_false_iff, decide_eq_false_iff_not] at hd
    simp only [path, List.length_append, List.length_cons, hdir]
    omega
  rw [addEntries, hd, if_neg Bool.false_ne_true, if_neg hlong]
  rfl

theorem addEntries_same (hskip : ∀ d ∈ files, skip outRamdisk d = false)
    (hrun : makeRamdiskFiles (fullPaths files) st = .ok (0, st')) :
    addEntries outRamdisk files st = .ok st' := by
  induction files generalizing st with
  | nil =>
    cases hrun
    rfl
  | cons d rest ih =>
    obtain ⟨hd, hrest⟩ := List.forall_mem_cons.1 hskip
    obtain ⟨⟨ret, mid⟩, hadd, -⟩ := Lib.Machine.ok_of_bind hrun
    rw [addEntries_cons hd, show addFile (path outRamdisk d) d.content st = _ from hadd]
    by_cases hret : ret = 0
    · subst hret
      rw [makeRamdiskFiles_next hadd] at hrun
      exact ih hrest hrun
    · rw [makeRamdiskFiles_stop hadd hret] at hrun
      cases hrun

theorem addFile_fileCnt (d : Dirent) (st : Blocks) : ∃ ret st',
    addFile (path outRamdisk d) d.content st = .ok (ret, st') ∧ st'.fileCnt ≤ st.fileCnt + 1 := by
  cases hc : d.content with
  | none => exact ⟨-1, st, rfl, Nat.le_succ _⟩
  | some content =>
    rw [← hc, addFile_path hc]
    refine ⟨(addFileFd d.dName content st).1, (addFileFd d.dName content st).2, rfl, ?_⟩
    unfold addFileFd
    split
    · exact Nat.le_succ _
    · split
      · exact Nat.le_succ _
      · exact Nat.le_refl _

/-- The directory mode always returns, with at most the files it does not skip. -/
theorem addEntries_fileCnt (files : List Dirent) (st : Blocks) :
    ∃ st', addEntries outRamdisk files st = .ok st' ∧
      st'.fileCnt ≤ st.fileCnt + files.countP fun d => !skip outRamdisk d := by
  induction files generalizing st with
  | nil => exact ⟨st, rfl, Nat.le_refl _⟩
  | cons d rest ih =>
    cases hd : skip outRamdisk d with
    | true =>
      obtain ⟨st', hrun, hcnt⟩ := ih st
      refine ⟨st', ?_, ?_⟩
      · rw [addEntries, hd]
        exact hrun
      · simpa [hd] using hcnt
    | false =>
      obtain ⟨ret, mid, hadd, hmid⟩ := addFile_fileCnt d st
      obtain ⟨st', hrun, hcnt⟩ := ih mid
      refine ⟨st', ?_, ?_⟩
      · rw [addEntries_cons hd, hadd]
        exact hrun
      · simp only [List.countP_cons, hd, Bool.not_false, if_true]
        omega

theorem copiedEntries_short : ∀ name ∈ copiedEntries outRamdisk files st, name.length + 1 ≤ 32 := by
  induction files generalizing st with
  | nil => simp [copiedEntries]
  | cons d rest ih =>
    rw [copiedEntries]
    cases hd : skip outRamdisk d with
    | true => exact ih
    | false =>
      obtain ⟨ret, mid, hadd, -⟩ := addFile_fileCnt d st
      rw [if_neg Bool.false_ne_true, hadd, copiedName, path_drop]
      intro name hname
      rcases List.mem_append.1 hname with hname | hname
      · split at hname
        · cases hname
        · obtain rfl := List.mem_singleton.1 hname
          simp only [skip, Bool.or_eq_false_iff, decide_eq_false_iff_not] at hd
          omega
      · exact ih name hname

theorem makeRamdiskFiles_laid (h : ∃ n ≤ maxSlots, Laid [] n st)
    (hrun : makeRamdiskFiles (fullPaths files) st = .ok (0, st')) :
    ∃ n ≤ maxSlots, Laid (files.map toFile) n st' := by
  have hnamed : namedFiles (fullPaths files) = files.map toFile := by
    rw [namedFiles, fullPaths, List.map_map]
    refine List.map_congr_left fun d _ => ?_
    simp only [Function.comp_apply, path_drop, toFile]
  have hlaid := makeRamdiskFiles_invariant laid_kept h hrun
  rwa [List.nil_append, hnamed] at hlaid

theorem reached_of_allFit (h : AllFit slots room files) : reached slots room files = files := by
  induction files generalizing slots room with
  | nil => rfl
  | cons d rest ih =>
    obtain ⟨content, hc, hpos, hlt, hrest⟩ := h
    simp only [reached, hc, Nat.ne_of_gt hpos, hlt, if_true, if_false, ih hrest]

/-- Files that all fit, with short names: both modes store them. -/
theorem both_modes (h : Left slots room st) (hreg : ∀ d ∈ files, Regular d)
    (hfit : AllFit slots room files) (hshort : ∀ d ∈ files, d.dName.length ≤ 31) :
    ∃ st', makeRamdiskFiles (fullPaths files) st = .ok (0, st') ∧
      addEntries outRamdisk files st = .ok st' := by
  have hskip : ∀ d ∈ files, skip outRamdisk d = false := by
    intro d hd
    rw [← Bool.not_eq_true, skip_iff (hreg d hd)]
    exact Nat.not_lt.2 (hshort d hd)
  rcases makeRamdiskFiles_cases h files with ⟨-, -, -, -, hnot⟩ | ⟨st', hrun, -, -⟩
  · exact absurd hfit hnot
  · exact ⟨st', hrun, addEntries_same hskip hrun⟩

/-- Both modes complete with the same blocks exactly if all files fit and have short names: a
file that the directory mode skips is missing from its count. -/
theorem complete_iff (h : Left slots room st) (hreg : ∀ d ∈ files, Regular d) :
    (∃ st', makeRamdiskFiles (fullPaths files) st = .ok (0, st') ∧
        addEntries outRamdisk files st = .ok st') ↔
      AllFit slots room files ∧ ∀ d ∈ files, d.dName.length ≤ 31 := by
  constructor
  · rintro ⟨st', hrun, hsame⟩
    rcases makeRamdiskFiles_cases h files with ⟨ret, st₁, hrun', hret, -⟩ |
      ⟨st₁, hrun', hfit, hcnt⟩
    · rw [hrun] at hrun'
      cases hrun'
      exact absurd rfl hret
    · rw [hrun] at hrun'
      cases hrun'
      obtain ⟨st₂, hdirRun, hcnt₂⟩ := addEntries_fileCnt files st
      rw [hdirRun] at hsame
      cases hsame
      refine ⟨hfit, fun d hd => ?_⟩
      have hle : files.length ≤ files.countP fun d => !skip outRamdisk d := by
        change _ ≤ st.fileCnt + _ at hcnt₂
        omega
      have hall := List.countP_eq_length.1 (Nat.le_antisymm List.countP_le_length hle) d hd
      have hskip : ¬ skip outRamdisk d = true := by simpa using hall
      rw [skip_iff (hreg d hd)] at hskip
      omega
  · rintro ⟨hfit, hshort⟩
    exact both_modes h hreg hfit hshort

end lists

/-- **The two modes of `mkrmd`**, on every list of regular files of `out/ramdisk` and any
contents of fresh memory. They agree or the file mode reports a failure, and no name is
written outside its field, exactly if the files the file mode reaches have names of at most 31
characters. Both complete with the same blocks exactly if, moreover, it reaches and stores
them all: the directory mode reports no failure at all. -/
theorem mkrmd_modes_iff (imem fmem : Nat → Byte) {dir : List Byte}
    (hdir : dirName dir = outRamdisk) {files : List Dirent} (hreg : ∀ d ∈ files, Regular d) :
    (ModesAgree dir files (memBlockInit imem fmem) ↔
      ∀ d ∈ reached maxSlots fmemBlockSize files, d.dName.length ≤ 31) ∧
    ((∃ st', makeRamdiskFiles (fullPaths files) (memBlockInit imem fmem) = .ok (0, st') ∧
        makeRamdiskDir dir files (memBlockInit imem fmem) = .ok st') ↔
      AllFit maxSlots fmemBlockSize files ∧ ∀ d ∈ files, d.dName.length ≤ 31) := by
  have hleft := memBlockInit_left imem fmem
  have hmode (st : Blocks) : makeRamdiskDir dir files st = addEntries outRamdisk files st := by
    rw [makeRamdiskDir, hdir]
  have hcopied : (∀ name ∈ copiedFiles (fullPaths files) (memBlockInit imem fmem),
      name.length + 1 ≤ 32) ↔
      ∀ d ∈ reached maxSlots fmemBlockSize files, d.dName.length ≤ 31 := by
    rw [copiedFiles_eq hleft, List.forall_mem_map]
    exact forall_congr' fun d => imp_congr_right fun _ => by omega
  constructor
  · refine ⟨fun h => hcopied.1 h.1, fun hshort => ⟨hcopied.2 hshort, ?_, ?_⟩⟩
    · rw [hdir]
      exact copiedEntries_short
    · rw [hmode]
      rcases makeRamdiskFiles_cases hleft files with ⟨ret, st₁, hrun, hret, -⟩ |
        ⟨st₁, hrun, hfit, -⟩
      · obtain ⟨st₂, hdirRun, -⟩ := addEntries_fileCnt files (memBlockInit imem fmem)
        exact ⟨ret, st₁, st₂, hrun, hdirRun, .inl hret⟩
      · rw [reached_of_allFit hfit] at hshort
        obtain ⟨st', hrun', hsame⟩ := both_modes hleft hreg hfit hshort
        rw [hrun] at hrun'
        cases hrun'
        have hstart : ∃ n ≤ maxSlots, Laid [] n (memBlockInit imem fmem) :=
          ⟨0, Nat.zero_le _, memBlockInit_laid imem fmem⟩
        obtain ⟨n, -, hlaid⟩ := makeRamdiskFiles_laid hstart hrun
        refine ⟨0, st₁, st₁, hrun, hsame, .inr ⟨rfl, fun i d hd => ?_⟩⟩
        have hget : (files.map toFile)[i]? = some (toFile d) := by
          rw [List.getElem?_map, hd]
          rfl
        exact hlaid.stored i (toFile d) hget (hshort d (List.mem_of_getElem? hd))
  · rw [hmode]
    exact complete_iff hleft hreg

/-- An empty file with a name of `n` characters. -/
def namedFile (n : Nat) : List Dirent := [⟨List.replicate n 97, 8, some []⟩]

theorem mkrmd_modes_longest_name :
    ModesAgree outRamdisk (namedFile 31) (memBlockInit (fun _ => 0) fun _ => 0) := by
  have hreg : ∀ d ∈ namedFile 31, Regular d := by
    intro d hd
    obtain rfl := List.mem_singleton.1 hd
    exact ⟨rfl, by decide, by decide⟩
  have hdir : dirName outRamdisk = outRamdisk := by decide
  exact (mkrmd_modes_iff _ _ hdir hreg).1.2 (by decide)

/-- A name of 33 characters: the file mode returns 0 with a wrong `f_offset`, the directory
mode adds nothing. -/
theorem mkrmd_modes_differ :
    ∃ st₁ st₂, makeRamdiskFiles (fullPaths (namedFile 33)) zeroBlocks = .ok (0, st₁) ∧
      makeRamdiskDir outRamdisk (namedFile 33) zeroBlocks = .ok st₂ ∧
      st₁.fileCnt = 1 ∧ st₂.fileCnt = 0 ∧ st₁.imem.mem 32 = 97 := by
  have hread : readLoop [] zeroBlocks.fmem 0 = (some 0, zeroBlocks.fmem) := by
    rw [readLoop]
    rfl
  have hadd : ∃ st₁, addFileFd (List.replicate 33 97) [] zeroBlocks = (0, st₁) ∧
      st₁.fileCnt = 1 ∧ st₁.imem.mem 32 = 97 := by
    rw [addFileFd, hread, if_neg (by decide)]
    exact ⟨_, rfl, rfl, by decide⟩
  obtain ⟨st₁, hret, hcnt, hbyte⟩ := hadd
  refine ⟨st₁, zeroBlocks, ?_, rfl, hcnt, rfl, hbyte⟩
  rw [namedFile, makeRamdiskFiles_next]
  · rfl
  · rw [addFile_path rfl, hret]

end SpringOs.Mkrmd
