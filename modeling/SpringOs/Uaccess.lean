import Mathlib.Tactic.SplitIfs
import SpringOs.Kobject
import SpringOs.Lib.Bytes
import SpringOs.PageTree
import SpringOs.PageWalk

/-!
Copies between the kernel and a process: `uspace/uaccess.c`, with the system calls that make
them.

Physical memory is the memory of the page tables, read and written by the byte. The buffer of
the kernel is not part of it: its bytes are a list, or a function of the index.

* **`copyFromUser`**, **`copyToUser`**: the copies, page by page;
* `toUserLoop_low`: below 64 GiB every byte arrives, and nothing else changes;
* `user_copy_iff`: the copies are right for any contents of the pages exactly if the pages
  lie below 64 GiB;
* `copy_unmapped_iff`: an address that is not mapped never makes a copy return an error.
-/

namespace SpringOs.Uaccess
open Kernel Lib.Word Lib.Bytes Lib.Machine PageTable Kobject

/-! ## `uaccess.c` -/

def bytesAt (mem : Nat → Nat → Pte) (a n : Nat) : List Byte :=
  (List.range n).map fun i => byteAt mem (a + i)

/-- `copy_size` of a round: up to the end of the page, or of the copy. -/
def chunk (offset size : Nat) : Nat := if 4096 - offset > size then size else 4096 - offset

/-- The loop of `__copy_from_user`: the bytes that come to `dst`. -/
def fromUserLoop (mem : Nat → Nat → Pte) (root : Nat) :
    Nat → Nat → Nat → Nat → Except Fault (List Byte)
  | 0, _, _, _ => .error .hang
  | fuel + 1, src, offset, size =>
    if size = 0 then .ok []
    else do
      let copySize := chunk offset size
      let a ← pgtblWalk mem root src
      let rest ← fromUserLoop mem root fuel (u64 (src + copySize)) 0 (size - copySize)
      .ok (bytesAt mem (vtop (ptov a)) copySize ++ rest)

/-- `__copy_from_user`, with the table at `root`; `copy_from_user` for that of the current
process. -/
def copyFromUser (mem : Nat → Nat → Pte) (root src size : Nat) :
    Except Fault (Int × List Byte) := do
  let dst ← fromUserLoop mem root (size + 1) src (src % 4096) size
  .ok (i32 size, dst)

/-- The loop of `__copy_to_user`. -/
def toUserLoop (root : Nat) : Nat → (Nat → Nat → Pte) → Nat → Nat → (Nat → Byte) → Nat →
    Except Fault (Nat → Nat → Pte)
  | 0, _, _, _, _, _ => .error .hang
  | fuel + 1, mem, dst, offset, src, size =>
    if size = 0 then .ok mem
    else do
      let copySize := chunk offset size
      let a ← pgtblWalk mem root dst
      toUserLoop root fuel (copy mem (vtop (ptov a)) src copySize) (u64 (dst + copySize)) 0
        (fun i => src (copySize + i)) (size - copySize)

/-- `__copy_to_user`, and `copy_to_user`. -/
def copyToUser (mem : Nat → Nat → Pte) (root dst : Nat) (src : Nat → Byte) (size : Nat) :
    Except Fault (Int × (Nat → Nat → Pte)) := do
  let mem ← toUserLoop root (size + 1) mem dst (dst % 4096) src size
  .ok (i32 size, mem)

/-! ## System calls -/

def stdioBufSize : Nat := 2048

/-- The loop of `stdio_send`: what it returns if it stops early, and what was printed. -/
def stdioLoop (mem : Nat → Nat → Pte) (root : Nat) :
    Nat → Nat → Nat → Except Fault (Option Int × List Byte)
  | 0, _, _ => .error .hang
  | fuel + 1, data, left =>
    if left = 0 then .ok (none, [])
    else do
      let n := if left > stdioBufSize then stdioBufSize else left
      let (ret, buf) ← copyFromUser mem root data n
      if ret ≤ 0 then .ok (some ret, [])
      else do
        let (stopped, printed) ← stdioLoop mem root fuel (u64 (data + n)) (left - n)
        .ok (stopped, buf ++ printed)

/-- `stdio_send`; its result is an `int` before it is a `long`. -/
def stdioSend (mem : Nat → Nat → Pte) (root data dataSize : Nat) :
    Except Fault (Int × List Byte) := do
  let (stopped, printed) ← stdioLoop mem root (dataSize + 1) data dataSize
  .ok (stopped.getD (i32 dataSize), printed)

/-- `sizeof(struct pma_create_arg)`, and of `struct process_create_arg`. -/
def sizeofCreateArg : Nat := 32

def pmaCreateArg (args : List Byte) : PmaCreateArg where
  type := i32 (ofBytes (fun i => args.getD i 0) 4)
  size := ofBytes (fun i => args.getD (24 + i) 0) 8

/-- What `create_pma` and `kobject_create_proc` begin with. -/
def withCreateArg (mem : Nat → Nat → Pte) (root data : Nat) (w : World) (proc : Proc)
    (create : List Byte → Except Fault (Created × World)) : Except Fault (Created × World) :=
  if proc.roots = false then .ok (.error (-eperm), w)
  else do
    let (ret, args) ← copyFromUser mem root data sizeofCreateArg
    if ret ≤ 0 then .ok (.error (-efault), w) else create args

/-- `create_pma`, from user memory. -/
def createPmaFrom (mem : Nat → Nat → Pte) (root data : Nat) (w : World) (proc : Proc)
    (env : CreateEnv) : Except Fault (Created × World) :=
  withCreateArg mem root data w proc fun args =>
    createPma w proc { env with arg := pmaCreateArg args }

/-- `kobject_create_proc`, from user memory; `create_proc` without a name does not refuse. -/
def createProcFrom (mem : Nat → Nat → Pte) (root data : Nat) (w : World) (proc : Proc)
    (env : CreateEnv) : Except Fault (Created × World) :=
  withCreateArg mem root data w proc fun _ => kobjectCreateProc w proc env

/-! ## Translation -/

/-- Where the architecture finds the byte at `va`. -/
def phys (mem : Nat → Nat → Pte) (root va : Nat) : Nat := (translate mem root va).getD 0

def Paged (mem : Nat → Nat → Pte) (root u n : Nat) : Prop :=
  ∀ i < n, (translate mem root (u + i)).isSome ∧ (look mem root (vpn (u + i))).1 = 0

/-- A range in 4 KiB pages, each in a page of memory of its own that is none of the tables. -/
structure UserRange (mem : Nat → Nat → Pte) (root u n : Nat) : Prop where
  paged : Paged mem root u n
  distinct : ∀ i < n, ∀ j < n, (u + i) / 4096 ≠ (u + j) / 4096 →
    phys mem root (u + i) / 4096 ≠ phys mem root (u + j) / 4096
  apart : ∀ i < n, ∀ r q p, IsTable mem root r q p → p ≠ pageOf (phys mem root (u + i))

section tables
variable {root : Nat} {mem mem' : Nat → Nat → Pte} {u n k va : Nat}

theorem phys_congr (h : SameTables root mem mem') (va : Nat) :
    phys mem' root va = phys mem root va := by
  rw [phys, phys, h.translate]

theorem UserRange.congr (hu : UserRange mem root u n) (h : SameTables root mem mem') :
    UserRange mem' root u n where
  paged i hi := by
    rw [h.translate, h.look (vpn_lt _)]
    exact hu.paged i hi
  distinct i hi j hj := by
    rw [phys_congr h, phys_congr h]
    exact hu.distinct i hi j hj
  apart i hi r q p hp := by
    rw [phys_congr h]
    exact hu.apart i hi r q p (h.isTable_iff.1 hp)

theorem translate_add (h : va % 4096 + k < 4096) :
    translate mem root (va + k) = (translate mem root va).map (· + k) := by
  have hvpn : vpn (va + k) = vpn va := by
    unfold vpn
    omega
  have hoff : (va + k) % 4096 = va % 4096 + k := by omega
  rw [translate_eq, translate_eq, hvpn, hoff, Option.map_map]
  congr 1
  funext x
  simp [Nat.add_assoc]

theorem phys_add (hsome : (translate mem root va).isSome) (h : va % 4096 + k < 4096) :
    phys mem root (va + k) = phys mem root va + k := by
  obtain ⟨x, hx⟩ := Option.isSome_iff_exists.1 hsome
  rw [phys, phys, translate_add h, hx]
  rfl

/-- On a page the walk of the kernel keeps the low 36 bits. -/
theorem pgtblWalk_phys (hsome : (translate mem root va).isSome)
    (hpage : (look mem root (vpn va)).1 = 0) :
    pgtblWalk mem root va = .ok (phys mem root va % 2 ^ 36) ∧
      phys mem root va % 4096 = va % 4096 := by
  obtain ⟨x, hx⟩ := Option.isSome_iff_exists.1 hsome
  rw [phys, hx, Option.getD_some]
  exact pgtblWalk_of_page hx hpage

/-- Only the low 48 bits of an address count, so a copy may run over the end of the 64. -/
theorem vpn_wrap (u k i : Nat) : vpn (u64 (u + k) + i) = vpn (u + (k + i)) := by
  unfold vpn u64
  omega

theorem translate_wrap (u k i : Nat) :
    translate mem root (u64 (u + k) + i) = translate mem root (u + (k + i)) := by
  have hoff : (u64 (u + k) + i) % 4096 = (u + (k + i)) % 4096 := by
    unfold u64
    omega
  rw [translate_eq, translate_eq, vpn_wrap, hoff]

theorem phys_wrap (u k i : Nat) :
    phys mem root (u64 (u + k) + i) = phys mem root (u + (k + i)) := by
  rw [phys, phys, translate_wrap]

theorem Paged.drop (h : Paged mem root u n) (hk : k ≤ n) :
    Paged mem root (u64 (u + k)) (n - k) := by
  intro i hi
  rw [vpn_wrap, translate_wrap]
  exact h (k + i) (by omega)

theorem UserRange.drop (h : UserRange mem root u n) (hk : k ≤ n) :
    UserRange mem root (u64 (u + k)) (n - k) where
  paged := h.paged.drop hk
  distinct i hi j hj hne := by
    rw [phys_wrap, phys_wrap]
    exact h.distinct (k + i) (by omega) (k + j) (by omega) (by unfold u64 at hne; omega)
  apart i hi := by
    rw [phys_wrap]
    exact h.apart (k + i) (by omega)

theorem UserRange.injective (h : UserRange mem root u n) {i j : Nat} (hi : i < n) (hj : j < n)
    (heq : phys mem root (u + i) = phys mem root (u + j)) : i = j := by
  have hi' := (pgtblWalk_phys (h.paged i hi).1 (h.paged i hi).2).2
  have hj' := (pgtblWalk_phys (h.paged j hj).1 (h.paged j hj).2).2
  by_cases hpage : (u + i) / 4096 = (u + j) / 4096
  · omega
  · exact absurd (by rw [heq]) (h.distinct i hi j hj hpage)

end tables

/-! ## The loops -/

section loops
variable {root : Nat} {mem : Nat → Nat → Pte} {u n fuel off : Nat}

theorem chunk_spec (hoff : off < 4096) (hn : n ≠ 0) :
    0 < chunk off n ∧ chunk off n ≤ n ∧ off + chunk off n ≤ 4096 ∧
      (chunk off n < n → off + chunk off n = 4096) := by
  unfold chunk
  split
  · omega
  · omega

theorem phys_chunk (hp : Paged mem root u n) (hn : n ≠ 0) {i : Nat}
    (hi : i < chunk (u % 4096) n) :
    phys mem root (u + i) = phys mem root u + i ∧
      phys mem root (u + i) % 2 ^ 36 = phys mem root u % 2 ^ 36 + i := by
  obtain ⟨-, -, hend, -⟩ := chunk_spec (Nat.mod_lt u (by decide : 0 < 4096)) hn
  obtain ⟨hsome, hpage⟩ := hp 0 (by omega)
  have hoff := (pgtblWalk_phys hsome hpage).2
  rw [Nat.add_zero] at hsome hoff
  rw [phys_add hsome (by omega)]
  omega

theorem walk_chunk (hp : Paged mem root u n) (hn : n ≠ 0) :
    pgtblWalk mem root u = .ok (phys mem root u % 2 ^ 36) := by
  obtain ⟨hsome, hpage⟩ := hp 0 (by omega)
  exact (pgtblWalk_phys hsome hpage).1

theorem next_offset (u : Nat) (h : n - chunk (u % 4096) n ≠ 0) :
    0 = u64 (u + chunk (u % 4096) n) % 4096 := by
  obtain ⟨-, -, -, hend⟩ := chunk_spec (Nat.mod_lt u (by decide : 0 < 4096)) (n := n) (by omega)
  have := hend (by omega)
  unfold u64
  omega

/-- `__copy_from_user` delivers the bytes at the addresses that remain in 36 bits. -/
theorem fromUserLoop_paged (hp : Paged mem root u n) (hoff : n ≠ 0 → off = u % 4096)
    (hfuel : n < fuel) :
    fromUserLoop mem root fuel u off n =
      .ok ((List.range n).map fun i => byteAt mem (phys mem root (u + i) % 2 ^ 36)) := by
  induction fuel generalizing u off n with
  | zero => omega
  | succ fuel ih =>
    rw [fromUserLoop]
    by_cases hn : n = 0
    · rw [if_pos hn, hn]
      rfl
    · obtain rfl := hoff hn
      obtain ⟨hpos, hle, -⟩ := chunk_spec (Nat.mod_lt u (by decide : 0 < 4096)) hn
      have hrest := ih (hp.drop hle) (next_offset u) (by omega)
      have hksrc : vtop (ptov (phys mem root u % 2 ^ 36)) = phys mem root u % 2 ^ 36 :=
        vtop_ptov (by omega)
      have hround : bytesAt mem (phys mem root u % 2 ^ 36) (chunk (u % 4096) n) =
          (List.range (chunk (u % 4096) n)).map fun i =>
            byteAt mem (phys mem root (u + i) % 2 ^ 36) :=
        List.map_congr_left fun i hi => by rw [(phys_chunk hp hn (List.mem_range.1 hi)).2]
      have hsplit : List.range n = List.range (chunk (u % 4096) n) ++
          (List.range (n - chunk (u % 4096) n)).map (chunk (u % 4096) n + ·) := by
        rw [← List.range_add, Nat.add_sub_cancel' hle]
      rw [if_neg hn, walk_chunk hp hn]
      simp only [bind, Except.bind, hrest, hksrc, phys_wrap]
      rw [hsplit, List.map_append, List.map_map, hround]
      rfl

/-- **A copy to user memory** below 64 GiB: each byte arrives at its place, and nothing else
changes. -/
theorem toUserLoop_low (src : Nat → Byte) (h : UserRange mem root u n)
    (hlow : ∀ i < n, phys mem root (u + i) < 2 ^ 36) (hoff : n ≠ 0 → off = u % 4096)
    (hfuel : n < fuel) :
    ∃ mem', toUserLoop root fuel mem u off src n = .ok mem' ∧ SameTables root mem mem' ∧
      (∀ i < n, byteAt mem' (phys mem root (u + i)) = src i) ∧
      ∀ x, (∀ i < n, x ≠ phys mem root (u + i)) → byteAt mem' x = byteAt mem x := by
  induction fuel generalizing mem u off n src with
  | zero => omega
  | succ fuel ih =>
    rw [toUserLoop]
    by_cases hn : n = 0
    · subst hn
      exact ⟨mem, rfl, .refl, fun i hi => absurd hi (Nat.not_lt_zero i), fun _ _ => rfl⟩
    obtain rfl := hoff hn
    obtain ⟨hpos, hle, -⟩ := chunk_spec (Nat.mod_lt u (by decide : 0 < 4096)) hn
    have hnext := next_offset (n := n) u
    have hphys : ∀ i < chunk (u % 4096) n, phys mem root (u + i) = phys mem root u + i :=
      fun i hi => (phys_chunk h.paged hn hi).1
    have hlow0 : phys mem root u < 2 ^ 36 := hlow 0 (by omega)
    generalize chunk (u % 4096) n = c at hpos hle hnext hphys
    -- the round keeps the tables, so the rest of the range is where it was
    have hsame : SameTables root mem (copy mem (phys mem root u) src c) := by
      intro r q p hp
      refine copy_of_pageOf_ne (fun i hi => ?_) src
      rw [← hphys i hi]
      exact h.apart i (by omega) r q p hp
    obtain ⟨mem', hrun, hsame', hin, hout⟩ := @ih _ _ _ 0 (fun i => src (c + i))
      ((h.drop hle).congr hsame)
      (fun i hi => by rw [phys_congr hsame, phys_wrap]; exact hlow _ (by omega)) hnext (by omega)
    simp only [phys_congr hsame, phys_wrap] at hin hout
    refine ⟨mem', ?_, hsame.trans hsame', ?_, ?_⟩
    · rw [if_neg hn, walk_chunk h.paged hn, Nat.mod_eq_of_lt hlow0]
      simp only [bind, Except.bind, vtop_ptov (show phys mem root u < 2 ^ 48 by omega)]
      exact hrun
    · intro i hi
      by_cases hic : i < c
      · rw [hout _ fun j hj heq => absurd (h.injective hi (by omega) heq) (by omega), hphys i hic,
          byteAt_copy, if_pos (by omega), Nat.add_sub_cancel_left]
      · obtain ⟨k, rfl⟩ := Nat.exists_eq_add_of_le (Nat.le_of_not_lt hic)
        exact hin k (by omega)
    · intro x hx
      rw [hout x fun j hj => hx (c + j) (by omega), byteAt_copy, if_neg]
      rintro ⟨hlo, hhi⟩
      refine hx (x - phys mem root u) (by omega) ?_
      rw [hphys _ (by omega), Nat.add_sub_cancel' hlo]

end loops

/-! ## What a copy should do -/

def CopiesFrom (mem : Nat → Nat → Pte) (root u n : Nat) : Prop :=
  copyFromUser mem root u n =
    .ok ((n : Int), (List.range n).map fun i => byteAt mem (phys mem root (u + i)))

/-- With the copy back from the same address. -/
def CopiesTo (mem : Nat → Nat → Pte) (root u : Nat) (src : Nat → Byte) (n : Nat) : Prop :=
  ∃ mem', copyToUser mem root u src n = .ok ((n : Int), mem') ∧
    (∀ i < n, byteAt mem' (phys mem root (u + i)) = src i) ∧
    (∀ x, (∀ i < n, x ≠ phys mem root (u + i)) → byteAt mem' x = byteAt mem x) ∧
    copyFromUser mem' root u n = .ok ((n : Int), (List.range n).map src)

section copies
variable {root : Nat} {mem : Nat → Nat → Pte} {u n : Nat}

theorem copyFromUser_paged (hn : n < 2 ^ 31) (hp : Paged mem root u n) :
    copyFromUser mem root u n =
      .ok ((n : Int), (List.range n).map fun i => byteAt mem (phys mem root (u + i) % 2 ^ 36)) := by
  have hret : i32 n = n := i32_of_lt (by omega) (by omega)
  rw [copyFromUser, fromUserLoop_paged hp (fun _ => rfl) (Nat.lt_succ_self n), hret]
  rfl

theorem copiesFrom_low (hn : n < 2 ^ 31) (hp : Paged mem root u n)
    (hlow : ∀ i < n, phys mem root (u + i) < 2 ^ 36) : CopiesFrom mem root u n := by
  have hbytes : ((List.range n).map fun i => byteAt mem (phys mem root (u + i) % 2 ^ 36)) =
      (List.range n).map fun i => byteAt mem (phys mem root (u + i)) :=
    List.map_congr_left fun i hi => by rw [Nat.mod_eq_of_lt (hlow i (List.mem_range.1 hi))]
  rw [CopiesFrom, copyFromUser_paged hn hp, hbytes]

theorem copiesTo_low (hn : n < 2 ^ 31) (h : UserRange mem root u n)
    (hlow : ∀ i < n, phys mem root (u + i) < 2 ^ 36) (src : Nat → Byte) :
    CopiesTo mem root u src n := by
  have hret : i32 n = n := i32_of_lt (by omega) (by omega)
  obtain ⟨mem', hrun, hsame, hin, hout⟩ :=
    toUserLoop_low src h hlow (fun _ => rfl) (Nat.lt_succ_self n)
  refine ⟨mem', ?_, hin, hout, ?_⟩
  · rw [copyToUser, hrun, hret]
    rfl
  · have hback : CopiesFrom mem' root u n :=
      copiesFrom_low hn (h.congr hsame).paged fun i hi => by
        rw [phys_congr hsame]
        exact hlow i hi
    rw [hback]
    congr 2
    exact List.map_congr_left fun i hi => by rw [phys_congr hsame, hin i (List.mem_range.1 hi)]

/-- A page above 64 GiB is not the one that is read, as one byte of it shows. -/
theorem not_copiesFrom_high (hn : n < 2 ^ 31) (h : UserRange mem root u n) {i : Nat} (hi : i < n)
    (hhigh : 2 ^ 36 ≤ phys mem root (u + i)) :
    ∃ mem', SameTables root mem mem' ∧ ¬ CopiesFrom mem' root u n := by
  have hne : phys mem root (u + i) % 2 ^ 36 ≠ phys mem root (u + i) := by omega
  generalize hx : phys mem root (u + i) = x at hne
  have hsame : SameTables root mem (setByte mem x (byteAt mem (x % 2 ^ 36) + 1)) := by
    intro r q p hp
    exact setByte_page (hx ▸ h.apart i hi r q p hp) _
  refine ⟨_, hsame, ?_⟩
  rw [CopiesFrom, copyFromUser_paged hn (h.congr hsame).paged]
  intro heq
  simp only [Except.ok.injEq, Prod.mk.injEq, true_and, List.map_inj_left, List.mem_range] at heq
  have hbyte := heq i hi
  rw [phys_congr hsame, hx, byteAt_setByte, if_neg hne, byteAt_setByte, if_pos rfl] at hbyte
  bv_omega

/-- **Copies between the kernel and a process.** For every range in 4 KiB pages of their own,
in any order, and every start and size, the copies are right for any contents of the memory
beside the tables exactly if the pages lie below 64 GiB. -/
theorem user_copy_iff (hn : n < 2 ^ 31) (h : UserRange mem root u n) :
    (∀ mem', SameTables root mem mem' →
        CopiesFrom mem' root u n ∧ ∀ src, CopiesTo mem' root u src n) ↔
      ∀ i < n, phys mem root (u + i) < 2 ^ 36 := by
  constructor
  · intro hall i hi
    by_contra hhigh
    obtain ⟨mem', hsame, hnot⟩ := not_copiesFrom_high hn h hi (Nat.le_of_not_lt hhigh)
    exact hnot (hall mem' hsame).1
  · intro hlow mem' hsame
    have hlow' : ∀ i < n, phys mem' root (u + i) < 2 ^ 36 := fun i hi => by
      rw [phys_congr hsame]
      exact hlow i hi
    have h' := h.congr hsame
    exact ⟨copiesFrom_low hn h'.paged hlow', copiesTo_low hn h' hlow'⟩

end copies

/-- Two pages from 4 MiB on, mapped to `pa` and `pa'` with tables at 4096 to 16384. -/
def twoPages (pa pa' : Nat) : Nat → Nat → Pte :=
  (((pagetableMap (newSpace [8192, 12288, 16384]) 4096 4194304 pa 4096 0).toOption.bind fun x =>
    (pagetableMap x.2 4096 4198400 pa' 4096 0).toOption).map fun x => x.2.mem).getD
      fun _ _ => 0

theorem twoPages_isTable {r q p : Nat}
    (h : IsTable (twoPages 0x900000 0x800000) 4096 r q p) : r ≤ 3 ∧ p = 4096 * (4 - r) := by
  have hchild : ∀ r < 3, ∀ i < 512,
      ∀ c ∈ child (twoPages 0x900000 0x800000 (4096 * (4 - (r + 1))) i), c = 4096 * (4 - r) := by
    decide +kernel
  induction h with
  | root => exact ⟨Nat.le_refl 3, rfl⟩
  | step _ hi hc ih =>
    obtain ⟨hle, rfl⟩ := ih
    exact ⟨by omega, hchild _ (by omega) _ hi _ hc⟩

theorem user_copy_two_pages :
    UserRange (twoPages 0x900000 0x800000) 4096 4198398 4 ∧
      CopiesTo (twoPages 0x900000 0x800000) 4096 4198398 (fun i => .ofNat 8 i) 4 := by
  have h : UserRange (twoPages 0x900000 0x800000) 4096 4198398 4 := by
    refine ⟨by unfold Paged; decide +kernel, by decide +kernel, fun i hi r q p hp => ?_⟩
    obtain ⟨-, rfl⟩ := twoPages_isTable hp
    have hpage : ∀ i < 4, 0x800000 ≤
        pageOf (phys (twoPages 0x900000 0x800000) 4096 (4198398 + i)) := by decide +kernel
    have := hpage i hi
    omega
  exact ⟨h, ((user_copy_iff (by decide) h).2 (by decide +kernel) _ .refl).2 _⟩

/-- A page at 64 GiB with one byte set: the copy reads address 0. -/
theorem copy_from_user_high :
    phys (setByte (twoPages 68719476736 0x800000) 68719476736 7) 4096 4194304 = 68719476736 ∧
      byteAt (setByte (twoPages 68719476736 0x800000) 68719476736 7) 68719476736 = 7 ∧
      (copyFromUser (setByte (twoPages 68719476736 0x800000) 68719476736 7) 4096 4194304
        1).toOption = some (1, [0]) := by
  decide +kernel

/-! ## Addresses that are not mapped -/

/-- The architecture finds something at `va`, for the table of a process: a page, or a block
of 2 MiB or 1 GiB. -/
def Present (mem : Nat → Nat → Pte) (root va : Nat) : Prop :=
  va < 2 ^ 48 ∧ ((translate mem root va).isSome ∨ ∃ pud, child (mem root (pgdIndex va)) = some pud ∧
    (mem pud (pudIndex va)).isValid = true ∧ (mem pud (pudIndex va)).isTable = false)

def PresentRange (mem : Nat → Nat → Pte) (root u n : Nat) : Prop :=
  ∀ i < n, Present mem root (u64 (u + i))

/-- `pgtbl_walk` passes its assertions everywhere. -/
def Walks (mem : Nat → Nat → Pte) (root u n : Nat) : Prop :=
  ∀ i < n, ∃ a, pgtblWalk mem root (u + i) = .ok a

section unmapped
variable {root : Nat} {mem : Nat → Nat → Pte} {u n k off fuel : Nat}

theorem walk_of_vpn {va va' : Nat} (h : vpn va = vpn va')
    (hok : ∃ a, pgtblWalk mem root va = .ok a) : ∃ a, pgtblWalk mem root va' = .ok a := by
  obtain ⟨a, ha⟩ := hok
  simp only [pgtblWalk, pgdIndex_eq, pudIndex_eq, pmdIndex_eq, ptIndex_eq, h] at ha ⊢
  split_ifs at ha ⊢ with hpgd hpud hpudTable hpmd hpmdTable hpt
  · exact ⟨_, rfl⟩
  · exact ⟨_, rfl⟩
  · exact ⟨_, rfl⟩

theorem walks_split (u : Nat) (hk : k ≤ n) :
    Walks mem root u n ↔ Walks mem root u k ∧ Walks mem root (u64 (u + k)) (n - k) := by
  constructor
  · intro h
    refine ⟨fun i hi => h i (by omega), fun i hi => ?_⟩
    exact walk_of_vpn (vpn_wrap u k i).symm (h (k + i) (by omega))
  · rintro ⟨hfirst, hrest⟩ i hi
    by_cases hik : i < k
    · exact hfirst i hik
    · obtain ⟨j, rfl⟩ := Nat.exists_eq_add_of_le (Nat.le_of_not_lt hik)
      exact walk_of_vpn (vpn_wrap u k j) (hrest j (by omega))

theorem walks_chunk (hn : n ≠ 0) :
    Walks mem root u (chunk (u % 4096) n) ↔ ∃ a, pgtblWalk mem root u = .ok a := by
  obtain ⟨hpos, -, hend, -⟩ := chunk_spec (Nat.mod_lt u (by decide : 0 < 4096)) hn
  constructor
  · exact fun h => h 0 hpos
  · intro h i hi
    exact walk_of_vpn (by unfold vpn; omega) h

theorem fromUserLoop_ok_iff (hoff : n ≠ 0 → off = u % 4096) (hfuel : n < fuel) :
    (∃ dst, fromUserLoop mem root fuel u off n = .ok dst) ↔ Walks mem root u n := by
  induction fuel generalizing u off n with
  | zero => omega
  | succ fuel ih =>
    rw [fromUserLoop]
    by_cases hn : n = 0
    · rw [if_pos hn]
      exact iff_of_true ⟨[], rfl⟩ fun i hi => by omega
    · obtain rfl := hoff hn
      obtain ⟨hpos, hle, -⟩ := chunk_spec (Nat.mod_lt u (by decide : 0 < 4096)) hn
      rw [if_neg hn, walks_split u hle, walks_chunk hn, ← ih (next_offset u) (by omega)]
      constructor
      · rintro ⟨dst, hdst⟩
        obtain ⟨a, ha, hdst⟩ := ok_of_bind hdst
        obtain ⟨rest, hrest, -⟩ := ok_of_bind hdst
        exact ⟨⟨a, ha⟩, rest, hrest⟩
      · rintro ⟨⟨a, ha⟩, rest, hrest⟩
        rw [ha]
        simp only [bind, Except.bind, hrest]
        exact ⟨_, rfl⟩

theorem copyFromUser_ret {ret : Int} {dst : List Byte}
    (h : copyFromUser mem root u n = .ok (ret, dst)) : ret = i32 n := by
  obtain ⟨_, -, h⟩ := ok_of_bind h
  cases h
  rfl

theorem copyToUser_ret {ret : Int} {src : Nat → Byte} {mem' : Nat → Nat → Pte}
    (h : copyToUser mem root u src n = .ok (ret, mem')) : ret = i32 n := by
  obtain ⟨_, -, h⟩ := ok_of_bind h
  cases h
  rfl

theorem copyFromUser_ok_iff :
    (∃ dst, copyFromUser mem root u n = .ok (i32 n, dst)) ↔ Walks mem root u n := by
  have hloop := @fromUserLoop_ok_iff root mem u n (u % 4096) _ (fun _ => rfl) (Nat.lt_succ_self n)
  rw [← hloop, copyFromUser]
  constructor
  · rintro ⟨dst, h⟩
    obtain ⟨dst', h, -⟩ := ok_of_bind h
    exact ⟨dst', h⟩
  · rintro ⟨dst, h⟩
    rw [h]
    exact ⟨dst, rfl⟩

theorem stdioLoop_succ (hn : n ≠ 0) (fuel : Nat) : ∃ k, 0 < k ∧ k ≤ n ∧
    stdioLoop mem root (fuel + 1) u n = (copyFromUser mem root u k).bind fun x =>
      (stdioLoop mem root fuel (u64 (u + k)) (n - k)).bind fun y => .ok (y.1, x.2 ++ y.2) := by
  rw [stdioLoop, if_neg hn]
  have hk : ∃ k, (if n > stdioBufSize then stdioBufSize else n) = k ∧ 0 < k ∧ k ≤ n ∧
      k ≤ 2048 := by
    refine ⟨_, rfl, ?_⟩
    unfold stdioBufSize
    split
    · omega
    · omega
  obtain ⟨k, hk, hpos, hle, hbuf⟩ := hk
  refine ⟨k, hpos, hle, ?_⟩
  simp only [hk]
  cases hcopy : copyFromUser mem root u k with
  | error f => rfl
  | ok x =>
    have hret : ¬ x.1 ≤ 0 := by
      rw [copyFromUser_ret hcopy, i32_of_lt (by omega) (by omega)]
      omega
    simp only [bind, Except.bind, if_neg hret]

theorem stdioLoop_none {res : Option Int × List Byte}
    (h : stdioLoop mem root fuel u n = .ok res) : res.1 = none := by
  induction fuel generalizing u n res with
  | zero => cases h
  | succ fuel ih =>
    by_cases hn : n = 0
    · rw [stdioLoop, if_pos hn] at h
      cases h
      rfl
    · obtain ⟨k, -, -, hrun⟩ := @stdioLoop_succ root mem u n hn fuel
      rw [hrun] at h
      obtain ⟨x, -, h⟩ := ok_of_bind h
      obtain ⟨y, hy, h⟩ := ok_of_bind h
      cases h
      have hnone : y.1 = none := ih hy
      exact hnone

theorem stdioLoop_ok_iff (hfuel : n < fuel) :
    (∃ res, stdioLoop mem root fuel u n = .ok res) ↔ Walks mem root u n := by
  induction fuel generalizing u n with
  | zero => omega
  | succ fuel ih =>
    by_cases hn : n = 0
    · rw [stdioLoop, if_pos hn]
      exact iff_of_true ⟨_, rfl⟩ fun i hi => by omega
    · obtain ⟨k, hpos, hle, hrun⟩ := @stdioLoop_succ root mem u n hn fuel
      rw [hrun, walks_split u hle, ← copyFromUser_ok_iff, ← ih (by omega)]
      constructor
      · rintro ⟨res, h⟩
        obtain ⟨x, hx, h⟩ := ok_of_bind h
        obtain ⟨y, hy, -⟩ := ok_of_bind h
        exact ⟨⟨x.2, by rw [hx, ← copyFromUser_ret hx]⟩, y, hy⟩
      · rintro ⟨⟨buf, hcopy⟩, y, hy⟩
        rw [hcopy, hy]
        exact ⟨_, rfl⟩

theorem stdioSend_ok_iff {ret : Int} :
    (∃ printed, stdioSend mem root u n = .ok (ret, printed)) ↔
      Walks mem root u n ∧ ret = i32 n := by
  rw [← stdioLoop_ok_iff (Nat.lt_succ_self n), stdioSend]
  constructor
  · rintro ⟨printed, h⟩
    obtain ⟨res, hres, h⟩ := ok_of_bind h
    simp only [stdioLoop_none hres] at h
    cases h
    exact ⟨⟨res, hres⟩, rfl⟩
  · rintro ⟨⟨res, hres⟩, rfl⟩
    refine ⟨res.2, ?_⟩
    rw [hres]
    simp only [bind, Except.bind, stdioLoop_none hres]
    rfl

/-! ## Creation -/

variable {w : World} {proc : Proc} {env : CreateEnv} {data : Nat}

/-- Only a copy that fails would report `-EFAULT`. -/
theorem withCreateArg_ne {create : List Byte → Except Fault (Created × World)}
    (hroots : proc.roots = true) (hne : ∀ args, create args ≠ .ok (.error (-efault), w)) :
    withCreateArg mem root data w proc create ≠ .ok (.error (-efault), w) := by
  intro h
  rw [withCreateArg, if_neg (by simp [hroots])] at h
  obtain ⟨x, hx, h⟩ := ok_of_bind h
  have hret : ¬ x.1 ≤ 0 := by
    rw [copyFromUser_ret hx]
    decide
  simp only [if_neg hret] at h
  exact hne x.2 h

theorem createPma_ne : createPma w proc env ≠ .ok (.error (-efault), w) := by
  unfold createPma createPmaNormal
  intro h
  split_ifs at h <;> cases h

theorem kobjectCreateProc_ne : kobjectCreateProc w proc env ≠ .ok (.error (-efault), w) := by
  unfold kobjectCreateProc
  intro h
  split_ifs at h
  · cases h
  · obtain ⟨x, -, h⟩ := ok_of_bind h
    cases h

end unmapped

/-- **Addresses that are not mapped.** A copy returns a value `≤ 0` when a page of the range
is not mapped only where no page is: the walk of the kernel asserts, or takes the address for
another one, and the copy then reports the whole size. So `create_pma` and
`kobject_create_proc` never report `-EFAULT`, and `stdio_send` does not return a value `≤ 0`
unless the size reads so as an `int`. -/
theorem copy_unmapped_iff (mem : Nat → Nat → Pte) (root u n : Nat) (hn : n < 2 ^ 31)
    (w : World) (proc : Proc) (env : CreateEnv) (hroots : proc.roots = true) :
    ((¬ PresentRange mem root u n →
        ∃ ret dst, copyFromUser mem root u n = .ok (ret, dst) ∧ ret ≤ 0) ↔
      PresentRange mem root u n) ∧
    (∀ src, (¬ PresentRange mem root u n →
        ∃ ret mem', copyToUser mem root u src n = .ok (ret, mem') ∧ ret ≤ 0) ↔
      PresentRange mem root u n) ∧
    (∀ size, (¬ PresentRange mem root u size →
        ∃ ret printed, stdioSend mem root u size = .ok (ret, printed) ∧ ret ≤ 0) ↔
      PresentRange mem root u size ∨ Walks mem root u size ∧ i32 size ≤ 0) ∧
    ((¬ PresentRange mem root u sizeofCreateArg →
        createPmaFrom mem root u w proc env = .ok (.error (-efault), w)) ↔
      PresentRange mem root u sizeofCreateArg) ∧
    ((¬ PresentRange mem root u sizeofCreateArg →
        createProcFrom mem root u w proc env = .ok (.error (-efault), w)) ↔
      PresentRange mem root u sizeofCreateArg) := by
  have hret : ¬ PresentRange mem root u n → ¬ i32 n ≤ 0 := by
    intro hnot hle
    rw [i32_of_lt (by omega) (by omega)] at hle
    exact hnot fun i hi => by omega
  have hne : ∀ {P Q : Prop}, (¬ P → ¬ Q) → ((¬ P → Q) ↔ P) := by
    intro P Q h
    exact ⟨fun hq => by_contra fun hp => h hp (hq hp), fun hp hnot => absurd hp hnot⟩
  refine ⟨hne ?_, fun src => hne ?_, fun size => ?_, hne fun _ => ?_, hne fun _ => ?_⟩
  · rintro hnot ⟨ret, dst, hrun, hle⟩
    exact hret hnot (copyFromUser_ret hrun ▸ hle)
  · rintro hnot ⟨ret, mem', hrun, hle⟩
    exact hret hnot (copyToUser_ret hrun ▸ hle)
  · rw [← or_iff_not_imp_left]
    refine or_congr_right ?_
    constructor
    · rintro ⟨ret, printed, hrun, hle⟩
      obtain ⟨hwalks, rfl⟩ := stdioSend_ok_iff.1 ⟨printed, hrun⟩
      exact ⟨hwalks, hle⟩
    · rintro ⟨hwalks, hle⟩
      obtain ⟨printed, hrun⟩ := stdioSend_ok_iff.2 ⟨hwalks, rfl⟩
      exact ⟨_, printed, hrun, hle⟩
  · exact withCreateArg_ne hroots fun _ => createPma_ne
  · exact withCreateArg_ne hroots fun _ => kobjectCreateProc_ne

theorem newSpace_not_present (n : Nat) (hn : 0 < n) :
    ¬ PresentRange (newSpace []).mem 4096 0 n := by
  intro h
  obtain ⟨-, hsome | ⟨pud, hpud, -⟩⟩ := h 0 hn
  · rw [newSpace_translate] at hsome
    cases hsome
  · cases child_zero.symm.trans hpud

def plenty : CreateEnv := ⟨⟨0, 4096⟩, true, true, some ⟨0, false⟩⟩

theorem copy_unmapped_one_byte :
    ¬ (¬ PresentRange (newSpace []).mem 4096 0 1 →
      ∃ ret dst, copyFromUser (newSpace []).mem 4096 0 1 = .ok (ret, dst) ∧ ret ≤ 0) :=
  fun h => newSpace_not_present 1 (by decide)
    ((copy_unmapped_iff (newSpace []).mem 4096 0 1 (by decide) start ⟨[], true⟩ plenty rfl).1.1 h)

/-- The root service passes a null pointer to `create_pma`: the kernel stops. An address above
the 48 bits of the table is taken for the one in its low bits. -/
theorem create_pma_null_asserts :
    ¬ PresentRange (newSpace []).mem 4096 0 sizeofCreateArg ∧
      createPmaFrom (newSpace []).mem 4096 0 start ⟨[], true⟩ plenty =
        .error (.assertion .pgtblWalk) ∧
      ¬ PresentRange (twoPages 0x900000 0x800000) 4096 (2 ^ 48 + 4194304) 1 ∧
      (copyFromUser (twoPages 0x900000 0x800000) 4096 (2 ^ 48 + 4194304) 1).toOption =
        some (1, [0]) := by
  refine ⟨newSpace_not_present _ (by decide), rfl, fun h => ?_, by decide +kernel⟩
  exact absurd (h 0 (by decide)).1 (by decide)

end SpringOs.Uaccess
