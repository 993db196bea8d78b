import SpringOs.MkrmdModes

/-!
Names that are not in the ramdisk: `ramdisk_open` on the images of `mkrmd`, in both of its modes
and for both readers.

* `Headed`: the first bytes of each inode are those of its name, also of a name that leaves its
  field;
* **`ramdisk_open_absent_iff`**: the names that are reported as missing. The readers compare 31
  characters, so a longer name finds the file with its first 31.
-/

namespace SpringOs.Mkrmd
open Kernel Lib.Word Lib.Bytes Ramdisk

/-! ## Images -/

/-- The blocks that `mkrmd` packs, and the files in them. -/
inductive Packed : List File → Blocks → Prop
  | dir {dir : List Byte} {entries : List Dirent} {imem fmem : Nat → Byte} {st : Blocks}
      (hrun : makeRamdiskDir dir entries (memBlockInit imem fmem) = .ok st) :
      Packed (added (dirName dir) entries (memBlockInit imem fmem)) st
  | files {paths : List (List Byte × Option (List Byte))} {imem fmem : Nat → Byte} {st : Blocks}
      (hrun : makeRamdiskFiles paths (memBlockInit imem fmem) = .ok (0, st)) :
      Packed (namedFiles paths) st

/-! ## The names in the inodes -/

/-- The name of each file, and its terminator, as far as they lie in the field. -/
def Headed (files : List File) (st : Blocks) : Prop :=
  ∀ i f, files[i]? = some f → ∀ j < 32, j ≤ f.name.length →
    st.imem.mem (48 * i + j) = cstr f.name j

/-- The blocks are laid out, and the names stand in their inodes. -/
def Sound (files : List File) (st : Blocks) : Prop :=
  (∃ slots ≤ maxSlots, Laid files slots st) ∧ Headed files st

variable {st : Blocks} {files : List File}

/-- `__add_file` writes behind the inodes there are, and the name first of all. -/
theorem addFileFd_imem (name content : List Byte) (hinode : ¬ st.imem.free < inodeSize) :
    (∀ x < st.imem.used, (addFileFd name content st).2.imem.mem x = st.imem.mem x) ∧
      ∀ j < 32, j ≤ name.length →
        (addFileFd name content st).2.imem.mem (st.imem.used + j) = cstr name j := by
  rw [addFileFd, if_neg hinode]
  cases readLoop content st.fmem 0 with
  | mk size fmem =>
    cases size with
    | none =>
      constructor
      · intro x hx
        exact (put_outside _ _ (.inl hx)).trans (put_outside _ _ (.inl (by omega)))
      · intro j hj hle
        exact put_inside _ _ _ (by omega)
    | some filesize =>
      constructor
      · intro x hx
        exact (put_outside _ _ (.inl (by omega))).trans
          ((put_outside _ _ (.inl hx)).trans (put_outside _ _ (.inl (by omega))))
      · intro j hj hle
        exact (put_outside _ _ (.inl (by omega))).trans (put_inside _ _ _ (by omega))

/-- A file that is added gets the inode behind those of the files before. -/
theorem Laid.inode_next {slots : Nat} (h : Laid files slots st) {name content : List Byte}
    (hinode : ¬ st.imem.free < inodeSize) (hret : (addFileFd name content st).1 = 0) :
    st.imem.used = 48 * files.length := by
  rcases h.next.2 with hfull | ⟨-, hlen⟩
  · obtain ⟨imem, fmem, hnone, -⟩ := addFileFd_none name content hinode (by omega)
    rw [hnone] at hret
    exact absurd (show -enomem = 0 from hret) (by decide)
  · rw [h.inodes.1, hlen]

theorem addFileFd_headed {slots : Nat} (h : Laid files slots st) (hhead : Headed files st)
    (name content : List Byte) :
    Headed (files ++ if (addFileFd name content st).1 = 0 then [⟨name, content⟩] else [])
      (addFileFd name content st).2 := by
  by_cases hinode : st.imem.free < inodeSize
  · have hret : addFileFd name content st = (-1, st) := if_pos hinode
    rw [hret]
    simpa using hhead
  · obtain ⟨hframe, hname⟩ := addFileFd_imem name content hinode
    have hold : Headed files (addFileFd name content st).2 := by
      intro i f hf j hj hle
      have hi := (List.getElem?_eq_some_iff.1 hf).1
      have hused := h.inodes.1
      have hcount := h.count.2
      rw [hframe _ (by omega)]
      exact hhead i f hf j hj hle
    split
    · rename_i hret
      intro i f hf j hj hle
      rw [List.getElem?_append] at hf
      split at hf
      · exact hold i f hf j hj hle
      · obtain ⟨hi, hval⟩ := List.getElem?_eq_some_iff.1 hf
        rw [List.length_singleton] at hi
        have hlast : i = files.length := by omega
        subst hlast
        simp only [Nat.sub_self, List.getElem_cons_zero] at hval
        subst hval
        rw [← h.inode_next hinode hret]
        exact hname j hj hle
    · rwa [List.append_nil]

theorem sound_kept : Kept Sound := by
  intro files st path content ret st' h hadd
  obtain ⟨⟨slots, hslots, hlaid⟩, hhead⟩ := h
  refine ⟨laid_kept _ _ _ _ _ _ ⟨slots, hslots, hlaid⟩ hadd, ?_⟩
  cases content with
  | none =>
    cases hadd
    simpa using hhead
  | some content =>
    obtain ⟨name, hname, hfd⟩ := Lib.Machine.ok_of_bind hadd
    unfold cleanFileName at hname
    split at hname
    · cases hname
      have hheaded := addFileFd_headed hlaid hhead (path.drop cleanPrefix.length) content
      rwa [Except.ok.inj hfd] at hheaded
    · cases hname

theorem memBlockInit_sound (imem fmem : Nat → Byte) : Sound [] (memBlockInit imem fmem) :=
  ⟨⟨0, Nat.zero_le _, memBlockInit_laid imem fmem⟩, fun i f hf => by simp at hf⟩

theorem Packed.sound (h : Packed files st) : Sound files st := by
  cases h with
  | dir hrun => exact addEntries_invariant sound_kept (memBlockInit_sound _ _) hrun
  | files hrun => exact makeRamdiskFiles_invariant sound_kept (memBlockInit_sound _ _) hrun

/-! ## Missing names -/

def Missing (rd : Option (Nat → Byte)) (name : List Byte) : Prop :=
  ∀ fd, ramdiskOpenFile rd (cstr name) fd = (-enoent, fd)

theorem Sound.missing_iff (h : Sound files st) (hnul : ∀ f ∈ files, 0 ∉ f.name)
    (old mem : Nat → Byte) {name : List Byte} (hname : 0 ∉ name) :
    Missing (some (copied st old mem)) name ↔ ∀ f ∈ files, f.name.take 31 ≠ name.take 31 := by
  obtain ⟨⟨slots, hslots, hlaid⟩, hhead⟩ := h
  have hsb := hlaid.sb_eq hslots old mem
  have hmatch : ∀ i f, files[i]? = some f →
      (strncmp (view (copied st old mem) (48 + inodeSize * i)) (cstr name) 31 = 0 ↔
        f.name.take 31 = name.take 31) := by
    intro i f hf
    have hi := (List.getElem?_eq_some_iff.1 hf).1
    have hcount := hlaid.count.2
    have hmax : slots ≤ 699050 := hslots
    refine strncmp_take (fun j hj hle => ?_) (hnul f (List.mem_of_getElem? hf)) hname
    rw [view, inodeSize, Nat.add_assoc, hlaid.disk_inode hslots old mem (by omega)
      (by unfold ramdiskSize; omega)]
    exact hhead i f hf j (by omega) hle
  have hopen : ∀ fd, ramdiskOpenFile (some (copied st old mem)) (cstr name) fd = (-enoent, fd) ↔
      ∀ i < files.length,
        strncmp (view (copied st old mem) (48 + inodeSize * i)) (cstr name) 31 ≠ 0 := fun fd =>
    ramdiskOpenFile_absent_iff (congrArg RamdiskSb.fileCnt hsb)
      (congrArg RamdiskSb.inodeOffset hsb) fd
  constructor
  · intro hmissing f hf heq
    obtain ⟨i, hi⟩ := List.getElem?_of_mem hf
    exact (hopen ⟨0, 0⟩).1 (hmissing ⟨0, 0⟩) i (List.getElem?_eq_some_iff.1 hi).1
      ((hmatch i f hi).2 heq)
  · intro hnone fd
    refine (hopen fd).2 fun i hi hzero => ?_
    have hf : files[i]? = some files[i] := List.getElem?_eq_getElem hi
    exact hnone files[i] (List.getElem_mem hi) ((hmatch i _ hf).1 hzero)

def longNamed : Dirent := ⟨List.replicate 31 97, 8, some []⟩

end SpringOs.Mkrmd
