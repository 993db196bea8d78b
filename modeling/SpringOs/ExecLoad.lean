import SpringOs.Exec
import SpringOs.UserSpace

/-!
What `exec` did when it returns 0, against the program headers of the file.

* **`ImageRight`**: what the process should read in each loadable segment, the bytes of the
  file first and zeros behind them;
* `Loaded`, **`loadSegments_loaded`**: what the loop over the headers leaves in memory. A
  segment the file does not hold stays as the allocator gave it, and so do its zeros;
* `mapRegions_grown`, `setupStack_frame`: the other regions lie beside the segments, and the
  arguments go down from the top of the stack, with one byte behind it;
* **`Loaded.beside`**: tables taken for the other regions may be hit, but lead to no segment;
* **`exec_loaded`**: with the arguments aside every segment ends where the loop put it.
-/

namespace SpringOs.Exec
open Kernel Lib.Word Lib.Bytes Lib.Machine Lib.Ranges PageTable Ramdisk

/-! ## The image -/

def hdrAt (disk : Nat → Byte) (inode off : Nat) : ProgHdr :=
  progHdr fun i => fileByte disk inode (off + i)

/-- The program headers of a file: `n` of them from `off` on, as far as it holds them. -/
def progHdrs (disk : Nat → Byte) (inode : Nat) : Nat → Nat → List ProgHdr
  | 0, _ => []
  | n + 1, off =>
    if off + progHdrSize ≤ fSize disk inode then
      hdrAt disk inode off :: progHdrs disk inode n (off + progHdrSize)
    else []

def isLoad (ph : ProgHdr) : Bool := ph.type == elfProgLoad

def loadHdrs (disk : Nat → Byte) (inode : Nat) : List ProgHdr :=
  (progHdrs disk inode (elfHdr (fileByte disk inode)).phnum
    (elfHdr (fileByte disk inode)).phoff).filter isLoad

/-- What the process reads. Its table serves the addresses of 48 bits. -/
def userByte (mem : Nat → Nat → Pte) (root va : Nat) : Option Byte :=
  if va < 281474976710656 then (translate mem root va).map (byteAt mem) else none

structure SegmentRight (disk : Nat → Byte) (inode root : Nat) (mem : Nat → Nat → Pte)
    (ph : ProgHdr) : Prop where
  file : ∀ k < ph.filesz, ph.off + k < fSize disk inode ∧
    userByte mem root (ph.vaddr + k) = some (fileByte disk inode (ph.off + k))
  zero : ∀ k, ph.filesz ≤ k → k < ph.memsz → userByte mem root (ph.vaddr + k) = some 0

structure ImageRight (disk : Nat → Byte) (inode root : Nat) (mem : Nat → Nat → Pte) : Prop where
  magic : (elfHdr (fileByte disk inode)).magic = elfMagic
  segments : ∀ ph ∈ loadHdrs disk inode, SegmentRight disk inode root mem ph

/-- A segment that the file holds, at addresses of the process, and whose zeros were there
already when the block at `pa` was allocated for it. -/
structure Loadable (disk : Nat → Byte) (inode : Nat) (mem : Nat → Nat → Pte) (ph : ProgHdr)
    (pa : Nat) : Prop where
  held : ph.filesz = 0 ∨ ph.off + ph.filesz ≤ fSize disk inode
  user : ph.memsz = 0 ∨ ph.vaddr < 281474976710656
  clean : ∀ k, ph.filesz ≤ k → k < ph.memsz → byteAt mem (pa + ph.vaddr % 4096 + k) = 0

/-! ## The memory -/

/-- The size of the block that `exec` asks for. -/
def mapSize (ph : ProgHdr) : Nat :=
  alignUp (u64 (ph.memsz + (ph.vaddr - alignDown ph.vaddr pageSize))) pageSize

/-- The blocks that answer requests for these sizes. -/
def granted : List (Option Nat) → List Nat → List Extent
  | some pa :: answers, size :: sizes => ⟨pa, size⟩ :: granted answers sizes
  | none :: answers, _ :: sizes => granted answers sizes
  | _, _ => []

/-- Blocks as the allocators give them out: apart from each other, from the tables and from
what is left for tables, in memory below 64 GiB. -/
structure Supply (root : Nat) (pt : PtState) (blocks : List Extent) : Prop where
  apart : blocks.Pairwise Extent.Apart
  clear : ∀ b ∈ blocks, Clear root pt b
  low : ∀ b ∈ blocks, b.pos + b.len ≤ 68719476736

structure Placed (root : Nat) (mem : Nat → Nat → Pte) (ph : ProgHdr) (pa : Nat) : Prop where
  pos_page : pa % 4096 = 0
  len_page : mapSize ph % 4096 = 0
  room : ph.vaddr % 4096 + ph.memsz ≤ mapSize ph
  space : ph.vaddr % 281474976710656 + ph.memsz ≤ 281474976710656
  leads : ∀ k, ph.vaddr % 4096 + k < mapSize ph →
    translate mem root (ph.vaddr + k) = some (pa + ph.vaddr % 4096 + k)

theorem Supply.tail {root : Nat} {pt : PtState} {b : Extent} {blocks : List Extent}
    (h : Supply root pt (b :: blocks)) : Supply root pt blocks where
  apart := (List.pairwise_cons.1 h.apart).2
  clear b hb := h.clear b (List.mem_cons_of_mem _ hb)
  low b hb := h.low b (List.mem_cons_of_mem _ hb)

/-- A segment after the loop, and what it holds if `mem` is what was there before. -/
structure Loaded (disk : Nat → Byte) (inode root : Nat) (mem mem' : Nat → Nat → Pte)
    (ph : ProgHdr) (pa : Nat) : Prop extends Placed root mem' ph pa where
  filesz_le : ph.filesz ≤ ph.memsz
  holds : ∀ k < ph.memsz, byteAt mem' (pa + ph.vaddr % 4096 + k) =
    if k < ph.filesz ∧ ph.off + ph.filesz ≤ fSize disk inode then fileByte disk inode (ph.off + k)
    else byteAt mem (pa + ph.vaddr % 4096 + k)

def block (x : ProgHdr × Nat) : Extent := ⟨x.2, mapSize x.1⟩

def span (ph : ProgHdr) : Extent := ⟨vpn ph.vaddr, mapSize ph / 4096⟩

section loaded

variable {disk : Nat → Byte} {inode root : Nat} {mem mem' : Nat → Nat → Pte} {ph : ProgHdr}
  {pa : Nat} {pt pt' : PtState} {written mapped : List Extent}

theorem Placed.has_block (h : Placed root mem ph pa) {k : Nat}
    (hk : k < ph.memsz) : (block (ph, pa)).Has (pa + ph.vaddr % 4096 + k) := by
  have := h.room
  constructor
  · change pa ≤ _
    omega
  · change _ < pa + mapSize ph
    omega

theorem Loaded.earlier (h : Loaded disk inode root pt'.mem mem' ph pa)
    (hgrown : Grown root written mapped pt pt') (hclear : Clear root pt (block (ph, pa)))
    (hapart : ∀ e ∈ written, (block (ph, pa)).Apart e) :
    Loaded disk inode root pt.mem mem' ph pa where
  toPlaced := h.toPlaced
  filesz_le := h.filesz_le
  holds k hk := by
    rw [h.holds k hk, hgrown.byteAt h.pos_page h.len_page hclear hapart (h.has_block hk)]

theorem Placed.later (h : Placed root pt.mem ph pa) (hgrown : Grown root written mapped pt pt') :
    Placed root pt'.mem ph pa where
  pos_page := h.pos_page
  len_page := h.len_page
  room := h.room
  space := h.space
  leads k hk := hgrown.translate (h.leads k hk)

theorem Loaded.later (h : Loaded disk inode root mem pt.mem ph pa)
    (hgrown : Grown root written mapped pt pt') (hclear : Clear root pt (block (ph, pa)))
    (hapart : ∀ e ∈ written, (block (ph, pa)).Apart e) :
    Loaded disk inode root mem pt'.mem ph pa where
  toPlaced := h.toPlaced.later hgrown
  filesz_le := h.filesz_le
  holds k hk := by
    rw [hgrown.byteAt h.pos_page h.len_page hclear hapart (h.has_block hk), h.holds k hk]

/-- **A loaded segment** is right exactly when it was loadable. -/
theorem Loaded.right_iff (h : Loaded disk inode root mem mem' ph pa) :
    SegmentRight disk inode root mem' ph ↔ Loadable disk inode mem ph pa := by
  have hspace := h.space
  have hle := h.filesz_le
  have hread : ∀ k < ph.memsz, ph.vaddr < 281474976710656 →
      userByte mem' root (ph.vaddr + k) = some (byteAt mem' (pa + ph.vaddr % 4096 + k)) := by
    intro k hk huser
    have := h.room
    rw [userByte, if_pos (by omega), h.leads k (by omega)]
    rfl
  constructor
  · intro hright
    have huser : ∀ k < ph.memsz, ph.vaddr + k < 281474976710656 := by
      intro k hk
      apply Classical.byContradiction
      intro hout
      have hnone : userByte mem' root (ph.vaddr + k) = none := if_neg hout
      by_cases hfile : k < ph.filesz
      · exact Option.some_ne_none _ ((hright.file k hfile).2.symm.trans hnone)
      · exact Option.some_ne_none _ ((hright.zero k (by omega) hk).symm.trans hnone)
    constructor
    · by_cases hzero : ph.filesz = 0
      · exact .inl hzero
      · have := (hright.file (ph.filesz - 1) (by omega)).1
        exact .inr (by omega)
    · by_cases hzero : ph.memsz = 0
      · exact .inl hzero
      · exact .inr (huser 0 (by omega))
    · intro k hlo hhi
      have hbyte := hright.zero k hlo hhi
      have := huser k hhi
      rw [hread k hhi (by omega), h.holds k hhi, if_neg (by omega)] at hbyte
      exact Option.some.inj hbyte
  · intro hload
    constructor
    · intro k hk
      have hheld := hload.held.resolve_left (by omega)
      have huser := hload.user.resolve_left (by omega)
      rw [hread k (by omega) huser, h.holds k (by omega), if_pos ⟨hk, hheld⟩]
      exact ⟨by omega, rfl⟩
    · intro k hlo hhi
      have huser := hload.user.resolve_left (by omega)
      rw [hread k hhi huser, h.holds k hhi, if_neg (by omega), hload.clean k hlo hhi]

end loaded

/-! ## One segment -/

theorem kalloc_some {st : ExecState} {pa : Nat} {answers : List (Option Nat)}
    (h : st.answers = some pa :: answers) (size : Nat) :
    kalloc st size =
      (ptov pa, { st with answers := answers, requests := st.requests ++ [size] }) := by
  simp [kalloc, h]

theorem kalloc_null {st : ExecState} (h : ∀ pa answers, st.answers ≠ some pa :: answers)
    (size : Nat) : ∃ st', kalloc st size = (0, st') := by
  unfold kalloc
  dsimp only
  split
  · exact absurd ‹_› (h _ _)
  · exact ⟨_, rfl⟩
  · exact ⟨_, rfl⟩

/-- The physical address of null is out of range. -/
theorem pagetableMap_null (pt : PtState) (root va size : Nat) (flags : Flags) :
    pagetableMap pt root va (vtop 0) size flags = .error (.assertion .pagetableMap) :=
  if_neg fun h => absurd h.2.2.1 (by decide)

section segment

variable {disk : Nat → Byte} {inode root : Nat} {ph : ProgHdr} {st st' : ExecState} {ret : Int}

theorem mapSize_eq (hsum : ph.vaddr + ph.memsz < 2 ^ 64) :
    mapSize ph = (ph.memsz + ph.vaddr % 4096 + 4095) % 2 ^ 64 / 4096 * 4096 := by
  have hoff : u64 (ph.memsz + (ph.vaddr - alignDown ph.vaddr pageSize)) =
      ph.memsz + ph.vaddr % 4096 := by
    rw [pageSize, alignDown_page (by omega)]
    unfold u64
    omega
  rw [mapSize, hoff]
  exact alignUp_mod _ 12

theorem loadSegment_steps (h : loadSegment disk inode root ph st = .ok (ret, st'))
    (hret : 0 ≤ ret) : ph.filesz ≤ ph.memsz ∧ ph.vaddr ≤ u64 (ph.vaddr + ph.memsz) ∧
      ∃ pa ret' pt a, st.answers = some pa :: st'.answers ∧
        st'.requests = st.requests ++ [mapSize ph] ∧ 0 ≤ ret' ∧
        pagetableMap st.pt root (alignDown ph.vaddr pageSize) (vtop (ptov pa)) (mapSize ph) vmRwx =
          .ok (ret', pt) ∧
        pgtblWalk pt.mem root ph.vaddr = .ok a ∧
        st'.pt = match (ramdiskRead disk inode ph.filesz ph.off).2 with
          | none => pt
          | some src => { pt with mem := copy pt.mem (vtop (ptov a)) src ph.filesz } := by
  unfold loadSegment at h
  split at h
  · cases h
    omega
  split at h
  · cases h
    omega
  refine ⟨by omega, by omega, ?_⟩
  dsimp only at h
  by_cases hans : ∃ pa answers, st.answers = some pa :: answers
  · obtain ⟨pa, answers, hans⟩ := hans
    rw [kalloc_some hans] at h
    obtain ⟨⟨ret', pt⟩, hmap, h⟩ := ok_of_bind h
    dsimp only at h
    split at h
    · cases h
      omega
    obtain ⟨a, hwalk, h⟩ := ok_of_bind h
    cases hread : ramdiskRead disk inode ph.filesz ph.off with
    | mk got src =>
      rw [hread] at h
      cases src with
      | none =>
        cases h
        exact ⟨pa, ret', pt, a, hans, rfl, by omega, hmap, hwalk, rfl⟩
      | some src =>
        cases h
        exact ⟨pa, ret', pt, a, hans, rfl, by omega, hmap, hwalk, rfl⟩
  · obtain ⟨st₁, hnull⟩ := kalloc_null (fun pa answers h => hans ⟨pa, answers, h⟩) (mapSize ph)
    rw [mapSize] at hnull
    rw [hnull] at h
    obtain ⟨⟨ret', pt⟩, hmap, -⟩ := ok_of_bind h
    rw [pagetableMap_null] at hmap
    cases hmap

theorem segment_placed {pt pt' : PtState} {pa : Nat} (hsum : ph.vaddr + ph.memsz < 2 ^ 64)
    (hst : Tables root pt) (hflat : Flat root pt.mem) (hlow : pa + mapSize ph ≤ 68719476736)
    (hmap : pagetableMap pt root (alignDown ph.vaddr pageSize) pa (mapSize ph) vmRwx =
      .ok (ret, pt')) (hret : 0 ≤ ret) :
    Grown root [] [span ph] pt pt' ∧ Placed root pt'.mem ph pa ∧
      0 < mapSize ph := by
  have hsize := mapSize_eq hsum
  have hdown : alignDown ph.vaddr pageSize = ph.vaddr / 4096 * 4096 := alignDown_page (by omega)
  rw [hdown] at hmap
  obtain ⟨-, hrange⟩ := pagetableMap_range hst hflat (by decide) (by omega) hmap hret
  have hvpn : vpn (ph.vaddr / 4096 * 4096) = vpn ph.vaddr := by
    unfold vpn
    omega
  have hgrown := hrange.grown
  rw [hvpn] at hgrown
  have hpos := hrange.pos
  have hspace := hrange.space
  refine ⟨hgrown, ⟨hrange.pa_page, hrange.size_page, by omega, by omega, ?_⟩, hpos⟩
  intro k hk
  have hlead := hrange.leads (by omega) (ph.vaddr % 4096 + k) hk
  rwa [show ph.vaddr / 4096 * 4096 + (ph.vaddr % 4096 + k) = ph.vaddr + k by omega,
    ← Nat.add_assoc] at hlead

theorem segment_read {pt pt' : PtState} {pa : Nat} (hle : ph.filesz ≤ ph.memsz)
    (hst : Tables root pt) (hflat : Flat root pt.mem) (hplaced : Placed root pt.mem ph pa)
    (hclear : Clear root pt (block (ph, pa))) (hlow : pa + mapSize ph ≤ 68719476736)
    (hfile : fSize disk inode < 2 ^ 31)
    (hpt : pt' = match (ramdiskRead disk inode ph.filesz ph.off).2 with
      | none => pt
      | some src => { pt with mem := copy pt.mem (pa + ph.vaddr % 4096) src ph.filesz }) :
    Grown root [block (ph, pa)] [] pt pt' ∧ Loaded disk inode root pt.mem pt'.mem ph pa := by
  have hroom := hplaced.room
  by_cases hheld : ph.off + ph.filesz ≤ fSize disk inode
  · rw [ramdiskRead_of_le hheld hfile] at hpt
    subst hpt
    have hin : ∀ {r q p}, IsTable pt.mem root r q p →
        (page p).Apart ⟨pa + ph.vaddr % 4096, ph.filesz⟩ := by
      intro r q p hp
      have := hclear.tables hp
      unfold Extent.Apart page block at *
      dsimp only at *
      omega
    have hcopy := grown_copy hst hflat hin fun i => fileByte disk inode (ph.off + i)
    refine ⟨hcopy.widen ?_, hplaced.later hcopy, hle, ?_⟩
    · intro e he
      obtain rfl := List.mem_singleton.1 he
      refine ⟨_, List.mem_singleton_self _, ?_, ?_⟩
      · exact Nat.le_add_right _ _
      · change pa + ph.vaddr % 4096 + ph.filesz ≤ pa + mapSize ph
        omega
    · intro k hk
      change byteAt (copy pt.mem _ _ _) _ = _
      rw [byteAt_copy]
      by_cases hfrom : k < ph.filesz
      · rw [if_pos (by omega), if_pos ⟨hfrom, hheld⟩, Nat.add_sub_cancel_left]
      · rw [if_neg (by omega), if_neg (by omega)]
  · rw [ramdiskRead_of_gt (by omega) (by omega) (by omega)] at hpt
    subst hpt
    refine ⟨(Grown.refl hst hflat).widen (fun e he => by cases he), hplaced, hle, ?_⟩
    intro k _
    rw [if_neg fun hk => hheld hk.2]

/-- **One segment** of the loop, in a block of its own. -/
theorem loadSegment_loaded (hvaddr : ph.vaddr < 2 ^ 64) (hmemsz : ph.memsz < 2 ^ 64)
    (hfile : fSize disk inode < 2 ^ 31) (hst : Tables root st.pt) (hflat : Flat root st.pt.mem)
    (hblock : ∀ pa, st.answers.head? = some (some pa) → Clear root st.pt (block (ph, pa)) ∧
      pa + mapSize ph ≤ 68719476736)
    (h : loadSegment disk inode root ph st = .ok (ret, st')) (hret : 0 ≤ ret) :
    ∃ pa, st.answers = some pa :: st'.answers ∧ st'.requests = st.requests ++ [mapSize ph] ∧
      Grown root [block (ph, pa)] [span ph] st.pt st'.pt ∧
      Loaded disk inode root st.pt.mem st'.pt.mem ph pa := by
  obtain ⟨hle, hwrap, pa, ret', pt, a, hans, hreq, hret', hmap, hwalk, hpt⟩ :=
    loadSegment_steps h hret
  obtain ⟨hclear, hlow⟩ := hblock pa (by rw [hans]; rfl)
  have hsum : ph.vaddr + ph.memsz < 2 ^ 64 := by
    unfold u64 at hwrap
    omega
  rw [vtop_ptov (by omega)] at hmap
  obtain ⟨hgrown, hplaced, hpos⟩ := segment_placed hsum hst hflat hlow hmap hret'
  -- the walk in software leads to the first byte of the segment
  have hoff : ph.vaddr % 4096 < mapSize ph := by
    have := hplaced.len_page
    omega
  have hfirst : translate pt.mem root ph.vaddr = some (pa + ph.vaddr % 4096) :=
    hplaced.leads 0 hoff
  rw [pgtblWalk_of_translate hgrown.tables hgrown.flat hfirst (by omega)] at hwalk
  obtain rfl := Except.ok.inj hwalk
  rw [vtop_ptov (by omega)] at hpt
  obtain ⟨hread, hloaded⟩ := segment_read hle hgrown.tables hgrown.flat hplaced
    (hgrown.clear hclear) hlow hfile hpt
  exact ⟨pa, hans, hreq, hgrown.trans hread,
    hloaded.earlier hgrown hclear fun e he => by cases he⟩

end segment

/-! ## The loop over the headers -/

section loop

variable {disk : Nat → Byte} {inode root : Nat} {st st' : ExecState} {ret : Int}

theorem granted_append (loaded : List (ProgHdr × Nat)) (answers : List (Option Nat))
    (sizes : List Nat) :
    granted (loaded.map (fun x => some x.2) ++ answers)
      ((loaded.map Prod.fst).map mapSize ++ sizes) =
      loaded.map block ++ granted answers sizes := by
  induction loaded with
  | nil => rfl
  | cons x loaded ih =>
    obtain ⟨ph, pa⟩ := x
    simp only [List.map_cons, List.cons_append, granted, block, ih]

theorem granted_sublist (answers : List (Option Nat)) (sizes rest : List Nat) :
    (granted answers sizes).Sublist (granted answers (sizes ++ rest)) := by
  induction answers generalizing sizes with
  | nil =>
    rw [granted.eq_def]
    exact List.nil_sublist _
  | cons a answers ih =>
    cases sizes with
    | nil =>
      rw [granted.eq_def]
      cases a <;> exact List.nil_sublist _
    | cons size sizes =>
      cases a with
      | none => exact ih sizes
      | some pa => exact (ih sizes).cons_cons ⟨pa, size⟩

theorem granted_singleton (pa size : Nat) (answers : List (Option Nat)) :
    granted (some pa :: answers) [size] = [⟨pa, size⟩] := by
  rw [granted]
  cases answers with
  | nil => rfl
  | cons answer _ => cases answer <;> rfl

variable {pt : PtState} {blocks : List Extent} {off n : Nat}

theorem Supply.sublist {blocks' : List Extent} (h : Supply root pt blocks)
    (hsub : blocks'.Sublist blocks) : Supply root pt blocks' where
  apart := h.apart.sublist hsub
  clear b hb := h.clear b (hsub.subset hb)
  low b hb := h.low b (hsub.subset hb)

theorem Supply.later {written mapped : List Extent} {pt' : PtState} (h : Supply root pt blocks)
    (hgrown : Grown root written mapped pt pt') :
    Supply root pt' blocks where
  apart := h.apart
  clear b hb := hgrown.clear (h.clear b hb)
  low := h.low

theorem hdr_held (hfile : fSize disk inode < 2 ^ 31)
    (h : (ramdiskRead disk inode progHdrSize off).1 = progHdrSize) :
    off + progHdrSize ≤ fSize disk inode := by
  apply Classical.byContradiction
  intro hout
  rw [ramdiskRead_of_gt (by decide) (by omega) (by omega)] at h
  cases h

theorem hdrAt_lt (off : Nat) :
    (hdrAt disk inode off).vaddr < 2 ^ 64 ∧ (hdrAt disk inode off).memsz < 2 ^ 64 :=
  ⟨ofBytes_lt _ 8, ofBytes_lt _ 8⟩

theorem loadSegments_eq (hfile : fSize disk inode < 2 ^ 31)
    (hheld : off + progHdrSize ≤ fSize disk inode) :
    loadSegments disk inode root (n + 1) off st =
      if isLoad (hdrAt disk inode off) then
        loadSegment disk inode root (hdrAt disk inode off) st >>= fun x =>
          if x.1 < 0 then .ok (x.1, x.2)
          else loadSegments disk inode root n (off + progHdrSize : Nat) x.2
      else loadSegments disk inode root n (off + progHdrSize : Nat) st := by
  have hu : u64 (off : Int) = off := by
    rw [u64_natCast]
    omega
  have hnext : i32 (off + progHdrSize) = (off + progHdrSize : Nat) := by
    unfold i32
    omega
  rw [loadSegments, hu, ramdiskRead_of_le hheld hfile, if_neg (not_not.2 rfl), hnext]
  by_cases hload : (hdrAt disk inode off).type = elfProgLoad
  · rw [isLoad, if_pos (beq_iff_eq.2 hload)]
    exact if_neg (not_not.2 hload)
  · rw [isLoad, if_neg fun heq => hload (beq_iff_eq.1 heq)]
    exact if_pos hload

theorem loadSegments_succ (hfile : fSize disk inode < 2 ^ 31) (hoff : off < 2 ^ 31)
    (h : loadSegments disk inode root (n + 1) off st = .ok (ret, st')) (hret : 0 ≤ ret) :
    off + progHdrSize ≤ fSize disk inode ∧
      if isLoad (hdrAt disk inode off) then
        ∃ ret' st₁, loadSegment disk inode root (hdrAt disk inode off) st = .ok (ret', st₁) ∧
          0 ≤ ret' ∧
          loadSegments disk inode root n (off + progHdrSize : Nat) st₁ = .ok (ret, st')
      else loadSegments disk inode root n (off + progHdrSize : Nat) st = .ok (ret, st') := by
  have hheld : off + progHdrSize ≤ fSize disk inode := by
    have hu : u64 (off : Int) = off := by
      rw [u64_natCast]
      omega
    rw [loadSegments, hu] at h
    split at h
    · cases h
      omega
    · exact hdr_held hfile (not_not.1 ‹_›)
  refine ⟨hheld, ?_⟩
  rw [loadSegments_eq hfile hheld] at h
  cases hload : isLoad (hdrAt disk inode off) with
  | false =>
    rw [hload] at h
    exact h
  | true =>
    rw [hload, if_pos rfl] at h
    obtain ⟨⟨ret', st₁⟩, hseg, h⟩ := ok_of_bind h
    dsimp only at h
    split at h
    · cases h
      omega
    · exact ⟨ret', st₁, hseg, by omega, h⟩

/-- **The loop** over the headers: each loadable segment gets the next block, and all of
them are in memory at the end. -/
theorem loadSegments_loaded (hfile : fSize disk inode < 2 ^ 31) (hoff : off < 2 ^ 31)
    (hst : Tables root st.pt) (hflat : Flat root st.pt.mem) {sizes : List Nat}
    (hsupply : Supply root st.pt (granted st.answers
      (((progHdrs disk inode n off).filter isLoad).map mapSize ++ sizes)))
    (h : loadSegments disk inode root n off st = .ok (ret, st')) (hret : 0 ≤ ret) :
    ∃ loaded : List (ProgHdr × Nat),
      loaded.map Prod.fst = (progHdrs disk inode n off).filter isLoad ∧
      st.answers = loaded.map (fun x => some x.2) ++ st'.answers ∧
      st'.requests = st.requests ++ (loaded.map Prod.fst).map mapSize ∧
      Grown root (loaded.map block) (loaded.map fun x => span x.1) st.pt st'.pt ∧
      ∀ x ∈ loaded, Loaded disk inode root st.pt.mem st'.pt.mem x.1 x.2 := by
  induction n generalizing off st with
  | zero =>
    cases h
    exact ⟨[], rfl, rfl, (List.append_nil _).symm, .refl hst hflat, fun x hx => by cases hx⟩
  | succ n ih =>
    obtain ⟨hheld, h⟩ := loadSegments_succ hfile hoff h hret
    have hhdrs : progHdrs disk inode (n + 1) off =
        hdrAt disk inode off :: progHdrs disk inode n (off + progHdrSize) := if_pos hheld
    rw [hhdrs] at hsupply ⊢
    cases hload : isLoad (hdrAt disk inode off) with
    | false =>
      rw [hload] at h
      rw [List.filter_cons_of_neg (by rw [hload]; decide)] at hsupply ⊢
      exact ih (by omega) hst hflat hsupply h
    | true =>
      rw [hload, if_pos rfl] at h
      obtain ⟨ret', st₁, hseg, hret', h⟩ := h
      rw [List.filter_cons_of_pos hload] at hsupply ⊢
      have hblock : ∀ pa, st.answers.head? = some (some pa) →
          block (hdrAt disk inode off, pa) ∈ granted st.answers
            ((hdrAt disk inode off :: (progHdrs disk inode n
              (off + progHdrSize)).filter isLoad).map mapSize ++ sizes) := by
        intro pa hpa
        obtain ⟨answers, hans⟩ := List.head?_eq_some_iff.1 hpa
        rw [hans]
        exact List.mem_cons_self
      obtain ⟨pa, hans, hreq, hgrown, hloaded⟩ := loadSegment_loaded (hdrAt_lt off).1
        (hdrAt_lt off).2 hfile hst hflat (fun pa hpa => ⟨hsupply.clear _ (hblock pa hpa),
          hsupply.low _ (hblock pa hpa)⟩) hseg hret'
      rw [hans, List.map_cons, List.cons_append, granted] at hsupply
      have happart := (List.pairwise_cons.1 hsupply.apart).1
      have hrest := hsupply.tail
      obtain ⟨loaded, hfst, hans', hreq', hgrown', hall⟩ :=
        ih (by omega) hgrown.tables hgrown.flat (hrest.later hgrown) h
      have hmem : ∀ x ∈ loaded, block x ∈ granted st₁.answers
          (((progHdrs disk inode n (off + progHdrSize)).filter isLoad).map mapSize ++ sizes) := by
        intro x hx
        rw [← hfst, hans', granted_append]
        exact List.mem_append_left _ (List.mem_map_of_mem hx)
      refine ⟨(hdrAt disk inode off, pa) :: loaded, ?_, ?_, ?_, hgrown.trans hgrown', ?_⟩
      · rw [List.map_cons, hfst]
      · rw [hans, hans']
        rfl
      · rw [hreq', hreq, List.append_assoc]
        rfl
      · intro x hx
        cases hx with
        | head =>
          apply hloaded.later hgrown' (hgrown.clear (hsupply.clear _ List.mem_cons_self))
          intro e he
          obtain ⟨y, hy, rfl⟩ := List.mem_map.1 he
          exact happart _ (hmem y hy)
        | tail _ hx =>
          apply (hall x hx).earlier hgrown (hrest.clear _ (hmem x hx))
          intro e he
          obtain rfl := List.mem_singleton.1 he
          exact Or.symm (happart _ (hmem x hx))

end loop

/-! ## Stack, heap and ramdisk -/

section regions

variable {root : Nat} {st st' : ExecState} {ret : Int}

theorem mapBlock_range {va addr size : Nat} (h : mapBlock root va addr size st = .ok (0, st'))
    (hst : Tables root st.pt) (hflat : Flat root st.pt.mem) (hsize : size < 2 ^ 64) :
    st'.answers = st.answers ∧ st'.requests = st.requests ∧
      Range root st.pt st'.pt va (vtop addr) size := by
  obtain ⟨⟨ret, pt⟩, hmap, h⟩ := ok_of_bind h
  dsimp only at h
  split at h
  · cases h
  · cases h
    obtain ⟨-, hrange⟩ := pagetableMap_range hst hflat (by decide) hsize hmap (by omega)
    exact ⟨rfl, rfl, hrange⟩

theorem mapRegions_steps (h : mapRegions root st = .ok (0, st')) :
    ∃ st₁ st₂, mapBlock root stackBase (kalloc st stackSize).1 stackSize (kalloc st stackSize).2 =
        .ok (0, st₁) ∧
      mapBlock root sysProcHeapBase (kalloc st₁ sysProcHeapSize).1 sysProcHeapSize
        (kalloc st₁ sysProcHeapSize).2 = .ok (0, st₂) ∧
      mapBlock root sysProcRamdiskBase (ptov ramdiskBase) ramdiskSize st₂ = .ok (0, st') := by
  unfold mapRegions at h
  obtain ⟨⟨ret, st₁⟩, hstack, h⟩ := ok_of_bind h
  dsimp only at h
  split at h
  · cases h
  rename_i hret
  obtain rfl := not_not.1 hret
  obtain ⟨⟨ret, st₂⟩, hheap, h⟩ := ok_of_bind h
  dsimp only at h
  split at h
  · cases h
  rename_i hret
  obtain rfl := not_not.1 hret
  exact ⟨st₁, st₂, hstack, hheap, h⟩

/-- The regions are mapped beside what was there, and the stack leads to its block. -/
theorem mapRegions_grown (hst : Tables root st.pt) (hflat : Flat root st.pt.mem)
    (hlow : ∀ pa, st.answers.head? = some (some pa) → pa + stackSize ≤ 68719476736)
    (h : mapRegions root st = .ok (0, st')) :
    ∃ pa mapped, st.answers.head? = some (some pa) ∧ pa % 4096 = 0 ∧
      st'.requests = st.requests ++ [stackSize, sysProcHeapSize] ∧
      Grown root [] mapped st.pt st'.pt ∧
      ∀ j < stackSize, translate st'.pt.mem root (stackBase + j) = some (pa + j) := by
  obtain ⟨st₁, st₂, hstack, hheap, hram⟩ := mapRegions_steps h
  have hkalloc : ∀ (st : ExecState) (size : Nat), (kalloc st size).2.pt = st.pt ∧
      (kalloc st size).2.requests = st.requests ++ [size] := by
    intro st size
    unfold kalloc
    dsimp only
    split <;> exact ⟨rfl, rfl⟩
  by_cases hans : ∃ pa answers, st.answers = some pa :: answers
  · obtain ⟨pa, answers, hans⟩ := hans
    have hpa := hlow pa (by rw [hans]; rfl)
    have hbig : stackSize = 8192 := rfl
    rw [kalloc_some hans] at hstack
    obtain ⟨-, hreq₁, hrange⟩ := mapBlock_range hstack hst hflat (by decide)
    rw [vtop_ptov (by omega)] at hrange
    have hgrown := hrange.grown
    obtain ⟨-, hreq₂, hheap⟩ := mapBlock_range hheap (by rw [(hkalloc _ _).1]; exact hgrown.tables)
      (by rw [(hkalloc _ _).1]; exact hgrown.flat) (by decide)
    have hheap := hheap.grown
    rw [(hkalloc _ _).1] at hheap
    obtain ⟨-, hreq₃, hram⟩ := mapBlock_range hram hheap.tables hheap.flat (by decide)
    have hram := hram.grown
    refine ⟨pa, _, by rw [hans]; rfl, hrange.pa_page, ?_, (hgrown.trans hheap).trans hram,
      fun j hj => hram.translate (hheap.translate (hrange.leads (by omega) j hj))⟩
    rw [hreq₃, hreq₂, (hkalloc _ _).2, hreq₁, List.append_assoc]
    rfl
  · obtain ⟨st₃, hnull⟩ := kalloc_null (fun pa answers h => hans ⟨pa, answers, h⟩) stackSize
    rw [hnull] at hstack
    obtain ⟨⟨ret, pt⟩, hmap, -⟩ := ok_of_bind hstack
    rw [pagetableMap_null] at hmap
    cases hmap

end regions

/-! ## The arguments -/

def argBytes : List Arg → Nat
  | [] => 0
  | arg :: rest => arg.chars.length + 1 + argBytes rest

/-- The bytes of the strings and, from the next 8-byte boundary down, of the words below them. -/
def argsSize (argv : List Arg) : Nat := (argBytes argv + 7) / 8 * 8 + 8 * (argv.length + 17)

def ArgsFit (argv : List Arg) : Prop := argsSize argv ≤ stackSize

instance (argv : List Arg) : Decidable (ArgsFit argv) := inferInstanceAs (Decidable (_ ≤ _))

/-- Where the arguments go, for a stack block at `pa`: from its top down, with the byte behind
it. -/
def argsArea (argv : List Arg) (pa : Nat) : Extent :=
  ⟨pa + stackSize - argsSize argv, argsSize argv + 1⟩

section stack

variable {root x p pa entry : Nat} {st st' : ExecState} {argv : List Arg}

theorem ptov_sub {n : Nat} (hx : x < 2 ^ 48) (hn : n ≤ x) : u64 (ptov x - n) = ptov (x - n) := by
  rw [ptov_of_lt hx, ptov_of_lt (by omega)]
  unfold u64 kernelAddrMask
  omega

theorem write_page {addr size : Nat} (h : p + 4096 ≤ vtop addr ∨ vtop addr + size ≤ p)
    (src : Nat → Byte) : (st.write addr size src).pt.mem p = st.pt.mem p :=
  copy_page h src

theorem pushArgs_frame {origin : Nat} {va : Nat} {argvp argvp' : List Nat} (hlow : x < 2 ^ 48)
    (hx : argBytes argv ≤ x) (hp : p + 4096 ≤ x - argBytes argv ∨ x < p)
    (h : pushArgs origin argv (ptov x) argvp st = .ok (va, argvp', st')) :
    va = ptov (x - argBytes argv) ∧ argvp'.length = argvp.length + argv.length + 1 ∧
      st'.requests = st.requests ∧ st'.pt.mem p = st.pt.mem p := by
  induction argv generalizing x argvp st with
  | nil =>
    rw [pushArgs] at h
    split at h
    · cases h
      exact ⟨rfl, List.length_append, rfl, rfl⟩
    · cases h
  | cons arg rest ih =>
    rw [argBytes] at hx hp ⊢
    have hva : u64 (ptov x - (arg.chars.length + 1 : Nat)) =
        ptov (x - (arg.chars.length + 1)) := ptov_sub hlow (by omega)
    have hphys : vtop (ptov (x - (arg.chars.length + 1))) = x - (arg.chars.length + 1) :=
      vtop_ptov (by omega)
    rw [pushArgs, hva] at h
    split at h
    · obtain ⟨hend, hlen, hreq, hframe⟩ := ih (x := x - (arg.chars.length + 1)) (by omega)
        (by omega) (by omega) h
      refine ⟨?_, ?_, hreq, hframe.trans (write_page (by omega) _)⟩
      · rw [hend]
        congr 1
        omega
      · rw [hlen, List.length_append, List.length_cons, List.length_cons, List.length_nil]
        omega
    · cases h

theorem pushWords_frame {ws : List Nat} (hlow : x < 2 ^ 48) (hx : 8 * ws.length ≤ x)
    (hp : p + 4096 ≤ x - 8 * ws.length ∨ x ≤ p) :
    (pushWords ws (ptov x) st).2.requests = st.requests ∧
      (pushWords ws (ptov x) st).2.pt.mem p = st.pt.mem p := by
  induction ws generalizing x st with
  | nil => exact ⟨rfl, rfl⟩
  | cons w ws ih =>
    rw [List.length_cons] at hx hp
    have hva : u64 (ptov x - (8 : Nat)) = ptov (x - 8) := ptov_sub hlow (by omega)
    have hphys : vtop (ptov (x - 8)) = x - 8 := vtop_ptov (by omega)
    change (pushWords ws (u64 (ptov x - (8 : Nat)))
      (st.write (u64 (ptov x - (8 : Nat))) 8 (byteOf w))).2.requests = _ ∧
      (pushWords ws (u64 (ptov x - (8 : Nat)))
        (st.write (u64 (ptov x - (8 : Nat))) 8 (byteOf w))).2.pt.mem p = _
    rw [hva]
    obtain ⟨hreq, hframe⟩ := @ih (x - 8) (st.write (ptov (x - 8)) 8 (byteOf w))
      (by omega) (by omega) (by omega)
    exact ⟨hreq, hframe.trans (write_page (by omega) _)⟩

theorem alignDown_ptov (hx : x < 2 ^ 48) : alignDown (ptov x) 8 = ptov (x / 8 * 8) := by
  have h : alignDown (ptov x) (2 ^ 3) = ptov x / 2 ^ 3 * 2 ^ 3 := alignDown_pow (u64_lt _)
  rw [ptov_of_lt hx] at h ⊢
  rw [ptov_of_lt (by omega)]
  refine h.trans ?_
  unfold kernelAddrMask
  omega

/-- **The stack**: no page changes that is apart from where the arguments go. -/
theorem setupStack_frame (hst : Tables root st.pt) (hflat : Flat root st.pt.mem)
    (hstack : translate st.pt.mem root stackBase = some pa) (hpage : pa % 4096 = 0)
    (hlow : pa + stackSize ≤ 68719476736) (hroom : argsSize argv ≤ pa + stackSize)
    (h : setupStack root entry argv st = .ok (0, st')) :
    st'.requests = st.requests ∧
      ∀ p, (page p).Apart (argsArea argv pa) → st'.pt.mem p = st.pt.mem p := by
  have hbig : stackSize = 8192 := rfl
  obtain ⟨pa', hwalk, h⟩ := ok_of_bind h
  rw [pgtblWalk_of_translate hst hflat hstack (by omega)] at hwalk
  obtain rfl := Except.ok.inj hwalk
  obtain ⟨⟨va, argvp, st₁⟩, hpush, h⟩ := ok_of_bind h
  unfold argsSize at hroom
  have hframe : ∀ p, (page p).Apart (argsArea argv pa) →
      st'.requests = st.requests ∧ st'.pt.mem p = st.pt.mem p := by
    intro p hp
    change p + 4096 ≤ pa + stackSize - argsSize argv ∨
      pa + stackSize - argsSize argv + (argsSize argv + 1) ≤ p at hp
    unfold argsSize at hp
    obtain ⟨rfl, hlen, hreq, hargs⟩ :=
      pushArgs_frame (p := p) (by omega) (by omega) (by omega) hpush
    have hwords : (auxv ++ [0] ++ argvp.reverse ++ [argv.length]).length = argv.length + 17 := by
      simp only [List.length_append, List.length_reverse, hlen, List.length_cons, List.length_nil]
      change 14 + 1 + (0 + argv.length + 1) + 1 = argv.length + 17
      omega
    dsimp only at h
    rw [alignDown_ptov (by omega)] at h
    cases h
    obtain ⟨hreq', hframe⟩ := @pushWords_frame
      ((pa + stackSize - argBytes argv) / 8 * 8) p st₁
      (auxv ++ [0] ++ argvp.reverse ++ [argv.length]) (by omega) (by omega) (by omega)
    exact ⟨hreq'.trans hreq, hframe.trans hargs⟩
  refine ⟨(hframe (pa + stackSize + 1) (.inr ?_)).1, fun p hp => (hframe p hp).2⟩
  change pa + stackSize - argsSize argv + (argsSize argv + 1) ≤ pa + stackSize + 1
  unfold argsSize
  omega

theorem setupStack_single {arg : Arg} (hst : Tables root st.pt) (hflat : Flat root st.pt.mem)
    (hstack : translate st.pt.mem root stackBase = some pa) (hlow : pa + stackSize ≤ 68719476736)
    (hroom : argsSize [arg] ≤ pa + stackSize)
    (hp : (pa + stackSize - (arg.chars.length + 1)) / 8 * 8 ≤ p)
    (h : setupStack root entry [arg] st = .ok (0, st')) :
    st'.pt.mem p = copy st.pt.mem (pa + stackSize - (arg.chars.length + 1))
      (fun i => (arg.chars ++ [0, arg.next]).getD i 0) (arg.chars.length + 2) p := by
  have hbig : stackSize = 8192 := rfl
  unfold argsSize argBytes argBytes at hroom
  rw [List.length_singleton] at hroom
  obtain ⟨pa', hwalk, h⟩ := ok_of_bind h
  rw [pgtblWalk_of_translate hst hflat hstack (by omega)] at hwalk
  obtain rfl := Except.ok.inj hwalk
  have hva : u64 (ptov (pa + stackSize) - (arg.chars.length + 1 : Nat)) =
      ptov (pa + stackSize - (arg.chars.length + 1)) := ptov_sub (by omega) (by omega)
  have hphys : vtop (ptov (pa + stackSize - (arg.chars.length + 1))) =
      pa + stackSize - (arg.chars.length + 1) := vtop_ptov (by omega)
  obtain ⟨⟨va, argvp, st₁⟩, hpush, h⟩ := ok_of_bind h
  rw [pushArgs, hva, if_pos (by simp), pushArgs, if_pos (Nat.le_of_ble_eq_true rfl)] at hpush
  cases hpush
  dsimp only at h
  rw [alignDown_ptov (by omega)] at h
  cases h
  refine (pushWords_frame (by omega) ?_ (.inr hp)).2.trans ?_
  · simp only [List.length_append, List.length_reverse, List.length_cons, List.length_nil]
    change 8 * (14 + 1 + 2 + 1) ≤ _
    omega
  · change copy _ (vtop _) _ _ p = _
    rw [hphys]

end stack

/-! ## `exec` -/

section exec

variable {disk : Nat → Byte} {path : List Byte} {argv : List Arg} {inode root : Nat}
  {st st' : ExecState}

theorem exec_steps (hopen : ramdiskOpen (some disk) (cstr path) = .ok inode)
    (h : exec (some disk) path (some argv) root st = .ok (0, st')) :
    (elfHdr (fileByte disk inode)).magic = elfMagic ∧ ∃ ret st₁ st₂,
      loadSegments disk inode root (elfHdr (fileByte disk inode)).phnum
        (i32 (elfHdr (fileByte disk inode)).phoff) st = .ok (ret, st₁) ∧ 0 ≤ ret ∧
      mapRegions root st₁ = .ok (0, st₂) ∧
      setupStack root (elfHdr (fileByte disk inode)).entry argv st₂ = .ok (0, st') := by
  cases argv with
  | nil => cases h
  | cons arg rest =>
    unfold exec at h
    rw [hopen] at h
    dsimp only at h
    split at h
    · cases h
    split at h
    · cases h
    rename_i hmagic
    refine ⟨not_not.1 hmagic, ?_⟩
    obtain ⟨⟨ret, st₁⟩, hload, h⟩ := ok_of_bind h
    dsimp only at h
    split at h
    · cases h
    rename_i hret
    obtain ⟨⟨ret', st₂⟩, hregions, h⟩ := ok_of_bind h
    dsimp only at h
    split at h
    · cases h
    rename_i hret'
    obtain rfl := not_not.1 hret'
    exact ⟨ret, st₁, st₂, hload, by omega, hregions, h⟩

/-- Where the arguments go there is no segment, and no table that was in use when the stack was
allocated. -/
structure Aside (disk : Nat → Byte) (inode root : Nat) (argv : List Arg) (st st₁ : ExecState)
    (pa : Nat) : Prop where
  room : argsSize argv ≤ pa + stackSize
  segments : ∀ b ∈ granted st.answers ((loadHdrs disk inode).map mapSize),
    b.Apart (argsArea argv pa)
  tables : ∀ {r q p}, IsTable st₁.pt.mem root r q p → (page p).Apart (argsArea argv pa)

/-- So it is when the segments are loaded and the next block is for the stack. -/
def ArgsAside (disk : Nat → Byte) (inode root : Nat) (argv : List Arg) (st : ExecState) : Prop :=
  ∃ ret st₁ pa, loadSegments disk inode root (elfHdr (fileByte disk inode)).phnum
      (i32 (elfHdr (fileByte disk inode)).phoff) st = .ok (ret, st₁) ∧
    st₁.answers.head? = some (some pa) ∧ Aside disk inode root argv st st₁ pa

/-- A segment with its tables keeps what it holds when the arguments go elsewhere. The tables that
were taken since may be hit: no address of the segment leads through them. -/
theorem Loaded.beside {ph : ProgHdr} {pa : Nat} {mem : Nat → Nat → Pte} {pt pt' : PtState}
    {mem' : Nat → Nat → Pte} {mapped : List Extent} {area : Extent}
    (h : Loaded disk inode root mem pt.mem ph pa) (hclear : Clear root pt (block (ph, pa)))
    (hgrown : Grown root [] mapped pt pt')
    (hframe : ∀ p, (page p).Apart area → mem' p = pt'.mem p) (hblock : (block (ph, pa)).Apart area)
    (htables : ∀ {r q p}, IsTable pt.mem root r q p → (page p).Apart area) :
    Loaded disk inode root mem mem' ph pa where
  pos_page := h.pos_page
  len_page := h.len_page
  room := h.room
  space := h.space
  leads k hk := by
    refine translate_of_keep (fun hp hne => ?_) (h.leads k hk)
    rw [hframe _ (htables hp)]
    exact hgrown.keep hp hne
  filesz_le := h.filesz_le
  holds k hk := by
    have hhas := h.has_block hk
    have hpage : mem' (pageOf (pa + ph.vaddr % 4096 + k)) =
        pt'.mem (pageOf (pa + ph.vaddr % 4096 + k)) := by
      apply hframe
      have hpos := h.pos_page
      have hlen := h.len_page
      unfold Extent.Has block at hhas
      unfold Extent.Apart page block at *
      unfold pageOf
      dsimp only at *
      omega
    have hbyte : byteAt mem' (pa + ph.vaddr % 4096 + k) =
        byteAt pt'.mem (pa + ph.vaddr % 4096 + k) := by
      unfold byteAt
      rw [hpage]
    rw [hbyte, hgrown.byteAt h.pos_page h.len_page hclear (fun e he => by cases he) hhas,
      h.holds k hk]

/-- With the arguments aside, the segments are in memory at the end. What was asked for are the
blocks of the segments, the stack and the heap. -/
theorem exec_loaded (hopen : ramdiskOpen (some disk) (cstr path) = .ok inode)
    (hfile : fSize disk inode < 2 ^ 31) (hphoff : (elfHdr (fileByte disk inode)).phoff < 2 ^ 31)
    (hst : Tables root st.pt) (hflat : Flat root st.pt.mem)
    (hsupply : Supply root st.pt (granted st.answers
      ((loadHdrs disk inode).map mapSize ++ [stackSize])))
    (hargs : ArgsAside disk inode root argv st)
    (h : exec (some disk) path (some argv) root st = .ok (0, st')) :
    ∃ (loaded : List (ProgHdr × Nat)) (answers : List (Option Nat)),
      loaded.map Prod.fst = loadHdrs disk inode ∧
      st.answers = loaded.map (fun x => some x.2) ++ answers ∧
      st'.requests =
        st.requests ++ ((loadHdrs disk inode).map mapSize ++ [stackSize, sysProcHeapSize]) ∧
      ∀ x ∈ loaded, Loaded disk inode root st.pt.mem st'.pt.mem x.1 x.2 := by
  obtain ⟨-, ret, st₁, st₂, hload, hret, hregions, hsetup⟩ := exec_steps hopen h
  obtain ⟨ret', st₁', pa, hload', hpa, haside⟩ := hargs
  cases hload.symm.trans hload'
  rw [i32_of_lt (by omega) (by omega)] at hload
  obtain ⟨loaded, hfst, hans, hreq₁, hgrown, hall⟩ :=
    loadSegments_loaded hfile hphoff hst hflat hsupply hload hret
  have hfst : loaded.map Prod.fst = loadHdrs disk inode := hfst
  have hsegments := haside.segments
  rw [← hfst, hans] at hsegments
  rw [← hfst, hans, granted_append] at hsupply
  have hlow : ∀ pa, st₁.answers.head? = some (some pa) → pa + stackSize ≤ 68719476736 := by
    intro pa hpa
    obtain ⟨answers, hanswers⟩ := List.head?_eq_some_iff.1 hpa
    apply hsupply.low ⟨pa, stackSize⟩
    rw [hanswers, granted_singleton]
    exact List.mem_append_right _ (List.mem_singleton_self _)
  obtain ⟨pa', mapped, hpa', hpage, hreq₂, hmid, hlead⟩ :=
    mapRegions_grown hgrown.tables hgrown.flat hlow hregions
  obtain rfl : pa' = pa := Option.some.inj (Option.some.inj (hpa'.symm.trans hpa))
  obtain ⟨hreq₃, hframe⟩ := setupStack_frame hmid.tables hmid.flat (hlead 0 (by decide)) hpage
    (hlow _ hpa) haside.room hsetup
  refine ⟨loaded, st₁.answers, hfst, hans, ?_, fun x hx => ?_⟩
  · rw [hreq₃, hreq₂, hreq₁, hfst, List.append_assoc]
  have hblock : Clear root st.pt (block x) :=
    hsupply.clear _ (List.mem_append_left _ (List.mem_map_of_mem hx))
  refine (hall x hx).beside (hgrown.clear hblock) hmid hframe (hsegments _ ?_) haside.tables
  have hnil := granted_append loaded st₁.answers []
  rw [List.append_nil] at hnil
  rw [hnil]
  exact List.mem_append_left _ (List.mem_map_of_mem hx)

end exec

end SpringOs.Exec
