import SpringOs.PageWalk

/-!
The leaf descriptors of `pagetable.c`, written by three copies of one encoder and read back by
the macros of `pagetable.h`.

* `pagetableChangePte_eq`, `pagetableChangePmde_eq`: the encoders store the descriptors that the
  model of `pagetable_map` stores;
* `leaf_encoders_iff`: the three agree in all attributes, and a macro returns the address that
  was stored exactly where the promoted bit-field can hold it;
* `permits_iff`: which accesses a descriptor allows beyond its flags;
* `pagetable_map_grants_iff`: the same of every leaf that a call of `pagetable_map` installs. The
  encoders take `vtop` of an address that is physical already, and set bit 48 in every leaf.
-/

namespace SpringOs.PageTable
open Kernel Lib.Word Lib.Radix

/-! ## The three encoders -/

def mtDeviceNGnRnE : Pte := 0
def mtNormalNc : Pte := 3
def mtNormal : Pte := 4
def mtNormalWt : Pte := 5

def s1PageNormal : Pte := s1DesPage ||| s1Af ||| s1Ns ||| s1ShInner ||| s1AttrIdx mtNormal
def s1PageDevice : Pte := s1DesPage ||| s1Af ||| s1Ns ||| s1ShInner ||| s1AttrIdx mtDeviceNGnRnE
def s1PageNormalNc : Pte := s1DesPage ||| s1Af ||| s1Ns ||| s1ShInner ||| s1AttrIdx mtNormalNc
def s1PageWt : Pte := s1DesPage ||| s1Af ||| s1Ns ||| s1ShInner ||| s1AttrIdx mtNormalWt

def s1BlockNormal : Pte := s1DesBlock ||| s1Af ||| s1Ns ||| s1ShInner ||| s1AttrIdx mtNormal
def s1BlockDevice : Pte := s1DesBlock ||| s1Af ||| s1Ns ||| s1ShInner ||| s1AttrIdx mtDeviceNGnRnE
def s1BlockNormalNc : Pte := s1DesBlock ||| s1Af ||| s1Ns ||| s1ShInner ||| s1AttrIdx mtNormalNc
def s1BlockWt : Pte := s1DesBlock ||| s1Af ||| s1Ns ||| s1ShInner ||| s1AttrIdx mtNormalWt

/-- The `switch` of an encoder, with its values. -/
def typeSwitch (normalNc device wt normal : Pte) (flags : Flags) : Pte :=
  if flags &&& vmTypeMask = vmNormalNc then normalNc
  else if flags &&& vmTypeMask = vmIo then device
  else if flags &&& vmTypeMask = vmWt then wt
  else normal

/-- The lines that the three encoders share. -/
def leafAttr (normalNc device wt normal : Pte) (flags : Flags) : Pte :=
  typeSwitch normalNc device wt normal flags ||| accessAttr flags |||
    (if flags.has vmExec then 0 else s1Xn ||| s1Pxn) |||
    (if flags.has vmPfnmap then s1Pfnmap else 0) |||
    (if flags.has vmDevmap then s1Devmap else 0) |||
    if flags.has (vmShared ||| vmPma) then s1Shared else 0

def pagetableChangePude (addr : Nat) (isBlock : Bool) (flags : Flags) : Pte :=
  .ofNat 64 (vtop addr) |||
    if isBlock then leafAttr s1BlockNormalNc s1BlockDevice s1BlockWt s1BlockNormal flags
    else tableAttr flags

def pagetableChangePmde (addr : Nat) (isBlock : Bool) (flags : Flags) : Pte :=
  .ofNat 64 (vtop addr) |||
    if isBlock then leafAttr s1BlockNormalNc s1BlockDevice s1BlockWt s1BlockNormal flags
    else tableAttr flags

def pagetableChangePte (addr : Nat) (flags : Flags) : Pte :=
  .ofNat 64 (vtop addr) ||| leafAttr s1PageNormalNc s1PageDevice s1PageWt s1PageNormal flags

theorem typeSwitch_or (a normalNc device wt normal : Pte) (flags : Flags) :
    typeSwitch (a ||| normalNc) (a ||| device) (a ||| wt) (a ||| normal) flags =
      a ||| typeSwitch normalNc device wt normal flags := by
  simp only [typeSwitch, apply_ite (a ||| ·)]

theorem typeSwitch_memType (flags : Flags) :
    typeSwitch (s1AttrIdx mtNormalNc) (s1AttrIdx mtDeviceNGnRnE) (s1AttrIdx mtNormalWt)
      (s1AttrIdx mtNormal) flags = s1AttrIdx (memType flags) := by
  simp only [typeSwitch, memType, apply_ite s1AttrIdx, mtNormalNc, mtDeviceNGnRnE, mtNormalWt,
    mtNormal]

/-- The values of the `switch` differ in the type of the descriptor only. -/
theorem leafAttr_eq (des : Pte) (flags : Flags) :
    leafAttr (des ||| s1Af ||| s1Ns ||| s1ShInner ||| s1AttrIdx mtNormalNc)
      (des ||| s1Af ||| s1Ns ||| s1ShInner ||| s1AttrIdx mtDeviceNGnRnE)
      (des ||| s1Af ||| s1Ns ||| s1ShInner ||| s1AttrIdx mtNormalWt)
      (des ||| s1Af ||| s1Ns ||| s1ShInner ||| s1AttrIdx mtNormal) flags =
      des ||| commonAttr flags := by
  rw [leafAttr, typeSwitch_or, typeSwitch_memType, commonAttr]
  simp only [BitVec.or_assoc]

theorem pagetableChangePte_eq (addr : Nat) (flags : Flags) :
    pagetableChangePte addr flags = pageEntry addr flags :=
  congrArg (BitVec.ofNat 64 (vtop addr) ||| ·) (leafAttr_eq s1DesPage flags)

theorem pagetableChangePmde_eq (addr : Nat) (flags : Flags) :
    pagetableChangePmde addr true flags = blockEntry addr flags ∧
      pagetableChangePmde addr false flags = tableEntry addr flags :=
  ⟨congrArg (BitVec.ofNat 64 (vtop addr) ||| ·) (leafAttr_eq s1DesBlock flags), rfl⟩

theorem pagetableChangePude_eq (addr : Nat) (flags : Flags) :
    pagetableChangePude addr true flags = blockEntry addr flags ∧
      pagetableChangePude addr false flags = tableEntry addr flags :=
  pagetableChangePmde_eq addr flags

/-! ## Addresses and attributes -/

structure SameAttr (e e' : Pte) : Prop where
  attrIndex : e.extractLsb' 2 3 = e'.extractLsb' 2 3
  ns : e.getLsbD 5 = e'.getLsbD 5
  ap : e.extractLsb' 6 2 = e'.extractLsb' 6 2
  sh : e.extractLsb' 8 2 = e'.extractLsb' 8 2
  af : e.getLsbD 10 = e'.getLsbD 10
  nG : e.getLsbD 11 = e'.getLsbD 11
  pxn : e.getLsbD 53 = e'.getLsbD 53
  uxn : e.getLsbD 54 = e'.getLsbD 54
  soft : e.extractLsb' 55 4 = e'.extractLsb' 55 4

theorem sameAttr_page_block (addr : Nat) (flags : Flags) :
    SameAttr (pageEntry addr flags) (blockEntry addr flags) := by
  have hfield : ∀ s l, s1DesPage.extractLsb' s l = s1DesBlock.extractLsb' s l →
      (pageEntry addr flags).extractLsb' s l = (blockEntry addr flags).extractLsb' s l := by
    intro s l h
    simp only [pageEntry, blockEntry, BitVec.extractLsb'_or, h]
  have hbit : ∀ i, s1DesPage.getLsbD i = s1DesBlock.getLsbD i →
      (pageEntry addr flags).getLsbD i = (blockEntry addr flags).getLsbD i := by
    intro i h
    simp only [pageEntry, blockEntry, BitVec.getLsbD_or, h]
  exact ⟨hfield _ _ (by decide), hbit _ (by decide), hfield _ _ (by decide),
    hfield _ _ (by decide), hbit _ (by decide), hbit _ (by decide), hbit _ (by decide),
    hbit _ (by decide), hfield _ _ (by decide)⟩

theorem pudBlockAddrInt_eq (e : Pte) :
    pudBlockAddrInt e = u64 (i32 (1073741824 * (pteTableAddr e / 1073741824) : Nat)) := by
  have hfield : (e.extractLsb' 30 18).toNat = pteTableAddr e / 1073741824 := by
    rw [pteTableAddr_eq, BitVec.extractLsb'_toNat, Nat.shiftRight_eq_div_pow]
    omega
  rw [pudBlockAddrInt, hfield, Int.natCast_mul]
  rfl

section
variable {pa : Nat} (flags : Flags)

theorem ptPageAddr_iff (hpage : pa % 4096 = 0) (hlt : pa < 2 ^ 48) :
    ptPageAddr (pageEntry pa flags) = pa ↔ pa < 2 ^ 36 := by
  rw [ptPageAddr, (pageEntry_eq flags hpage).2.2]
  omega

theorem pmdBlockAddrInt_iff (hpage : pa % 2097152 = 0) (hlt : pa < 2 ^ 48) :
    pmdBlockAddrInt (blockEntry pa flags) = pa ↔ pa < 2 ^ 31 := by
  rw [pmdBlockAddrInt, (blockEntry_eq flags hpage).2.2, Nat.mod_eq_of_lt hlt]
  unfold u64 i32
  omega

theorem pudBlockAddrInt_iff (hpage : pa % 1073741824 = 0) (hlt : pa < 2 ^ 48) :
    pudBlockAddrInt (blockEntry pa flags) = pa ↔ pa < 2 ^ 31 := by
  have haddr := (blockEntry_eq flags (show pa % 2097152 = 0 by omega)).2.2
  have hsplit := pmdBlockAddr_eq (blockEntry pa flags)
  have hfield : 1073741824 * (pteTableAddr (blockEntry pa flags) / 1073741824) = pa := by omega
  rw [pudBlockAddrInt_eq, hfield]
  unfold u64 i32
  omega

end

/-- **The three encoders.** They set the same attributes for the same flags; the addresses come
back from the macros exactly for pages below 64 GiB and blocks below 2 GiB. -/
theorem leaf_encoders_iff (pa : Nat) (flags : Flags) (hpage : pa % 4096 = 0) (hlt : pa < 2 ^ 48) :
    SameAttr (pagetableChangePte pa flags) (pagetableChangePmde pa true flags) ∧
    SameAttr (pagetableChangePte pa flags) (pagetableChangePude pa true flags) ∧
    ((ptPageAddr (pagetableChangePte pa flags) = pa ∧
        (pa % 2097152 = 0 → pmdBlockAddrInt (pagetableChangePmde pa true flags) = pa) ∧
        (pa % 1073741824 = 0 → pudBlockAddrInt (pagetableChangePude pa true flags) = pa)) ↔
      pa < 2 ^ 36 ∧ (pa % 2097152 = 0 → pa < 2 ^ 31)) := by
  rw [pagetableChangePte_eq, (pagetableChangePmde_eq pa flags).1,
    (pagetableChangePude_eq pa flags).1]
  refine ⟨sameAttr_page_block pa flags, sameAttr_page_block pa flags, ?_⟩
  rw [ptPageAddr_iff flags hpage hlt]
  constructor
  · rintro ⟨hpte, hpmde, -⟩
    exact ⟨hpte, fun hal => (pmdBlockAddrInt_iff flags hal hlt).1 (hpmde hal)⟩
  · rintro ⟨hpte, hblock⟩
    refine ⟨hpte, fun hal => (pmdBlockAddrInt_iff flags hal hlt).2 (hblock hal), fun hal => ?_⟩
    exact (pudBlockAddrInt_iff flags hal hlt).2 (hblock (by omega))

theorem leaf_encoders_first_gigabyte :
    ptPageAddr (pagetableChangePte 0x40000000 vmExec) = 0x40000000 ∧
      pmdBlockAddrInt (pagetableChangePmde 0x40000000 true vmExec) = 0x40000000 ∧
      pudBlockAddrInt (pagetableChangePude 0x40000000 true vmExec) = 0x40000000 := by
  have h := (leaf_encoders_iff 0x40000000 vmExec (by decide) (by decide)).2.2.2
    ⟨by decide, by decide⟩
  exact ⟨h.1, h.2.1 (by decide), h.2.2 (by decide)⟩

/-- A block at 2 GiB is read back with its sign extended, a page at 64 GiB as page 0. -/
theorem leaf_encoders_high_addresses :
    pmdBlockAddrInt (pagetableChangePmde 0x80000000 true 0) = 0xffffffff80000000 ∧
      pudBlockAddrInt (pagetableChangePude 0x80000000 true 0) = 0xffffffff80000000 ∧
      ptPageAddr (pagetableChangePte 0x1000000000 0) = 0 := by
  decide +kernel

/-! ## What a descriptor allows -/

def vmWrite : Flags := 0x200000

/-- The accesses a leaf allows are asked for: to write (AP[2] clear), from EL0 (AP[1] set), to
execute at EL1 or EL0 (PXN or UXN clear). -/
structure Permits (flags : Flags) (e : Pte) : Prop where
  write : e.getLsbD 7 = false → flags.has vmWrite = true
  user : e.getLsbD 6 = true → flags.has vmKern = false
  exec : e.getLsbD 53 = false ∨ e.getLsbD 54 = false → flags.has vmExec = true

/-- Bits 51 to 48 are reserved and have to be zero. -/
structure GrantsOnly (flags : Flags) (e : Pte) : Prop extends Permits flags e where
  reserved : e.extractLsb' 48 4 = 0

theorem accessAttr_write (flags : Flags) :
    (accessAttr flags).getLsbD 7 = false ↔ flags &&& vmRwMask ≠ vmRo := by
  unfold accessAttr
  split
  · split
    · rename_i hro
      simp [hro, s1ApRo]
    · rename_i hro
      simp [hro, s1ApRw]
  · split
    · rename_i hro
      simp [hro, s1ApRoUro]
    · rename_i hro
      simp [hro, s1ApRwUrw, s1NG]

theorem accessAttr_user (flags : Flags) :
    (accessAttr flags).getLsbD 6 = true ↔ flags.has vmKern = false := by
  unfold accessAttr
  split
  · rename_i hkern
    rw [hkern]
    split <;> decide
  · rename_i hkern
    rw [Bool.not_eq_true] at hkern
    rw [hkern]
    split <;> decide

/-- AP[2], AP[1], PXN and UXN. -/
def accessMask : Pte := 0x00600000000000c0

def execAttr (flags : Flags) : Pte := if flags.has vmExec then 0 else s1Xn ||| s1Pxn

theorem commonAttr_mask (flags : Flags) :
    commonAttr flags &&& accessMask = (accessAttr flags ||| execAttr flags) &&& accessMask := by
  have hbase : (s1Af ||| s1Ns ||| s1ShInner) &&& accessMask = 0 := by decide
  have htype : s1AttrIdx (memType flags) &&& accessMask = 0 := by
    unfold memType
    repeat' split
    all_goals decide
  have hite : ∀ (c : Bool) (a : Pte), a &&& accessMask = 0 →
      (if c then a else 0) &&& accessMask = 0 := by
    intro c a ha
    cases c
    · exact BitVec.zero_and
    · exact ha
  rw [commonAttr]
  simp only [BitVec.and_or_distrib_right, htype, hite _ s1Pfnmap (by decide),
    hite _ s1Devmap (by decide), hite _ s1Shared (by decide), execAttr]
  rw [← BitVec.and_or_distrib_right, ← BitVec.and_or_distrib_right, hbase]
  simp

theorem getLsbD_mask {a c : Pte} (h : a &&& accessMask = c &&& accessMask) {i : Nat}
    (hi : accessMask.getLsbD i = true) : a.getLsbD i = c.getLsbD i := by
  have hbit := congrArg (BitVec.getLsbD · i) h
  simpa [hi] using hbit

theorem ofNat_low_bit {x i : Nat} (hx : x % 4096 = 0) (hi : i < 12) :
    (BitVec.ofNat 64 x).getLsbD i = false := by
  have hmul : x = 2 ^ 12 * (x / 4096) := by omega
  rw [BitVec.getLsbD_ofNat, hmul, Nat.testBit_two_pow_mul]
  simp [show ¬ 12 ≤ i by omega]

theorem ofNat_high_bit {x i : Nat} (hx : x < 2 ^ i) : (BitVec.ofNat 64 x).getLsbD i = false := by
  rw [BitVec.getLsbD_ofNat, Nat.testBit_lt_two_pow hx, Bool.and_false]

def IsLeaf (flags : Flags) (pa : Nat) (e : Pte) : Prop :=
  e = pagetableChangePte pa flags ∨ e = pagetableChangePmde pa true flags

theorem IsLeaf.eq {flags : Flags} {pa : Nat} {e : Pte} (h : IsLeaf flags pa e) :
    ∃ des, (des = s1DesPage ∨ des = s1DesBlock) ∧
      e = .ofNat 64 (vtop pa) ||| (des ||| commonAttr flags) := by
  rcases h with rfl | rfl
  · exact ⟨_, .inl rfl, pagetableChangePte_eq pa flags⟩
  · exact ⟨_, .inr rfl, (pagetableChangePmde_eq pa flags).1⟩

section
variable {flags : Flags} {pa : Nat} {e : Pte} (h : IsLeaf flags pa e) (hpage : pa % 4096 = 0)
  (hlt : pa < 2 ^ 49)
include h hpage hlt

/-- A physical address below `2 ^ 49` comes out of `vtop` with bit 48 or bit 49 set. -/
theorem IsLeaf.reserved : e.extractLsb' 48 4 ≠ 0 := by
  obtain ⟨des, hdes, rfl⟩ := h.eq
  have hzero : (des ||| commonAttr flags).extractLsb' 48 4 = 0#4 := by
    rw [BitVec.extractLsb'_or, (commonAttr_off flags).reserved]
    rcases hdes with rfl | rfl <;> decide
  have hvtop : vtop pa = pa + 281474976710656 := by
    unfold vtop u64 kernelAddrMask
    omega
  intro hres
  rw [BitVec.extractLsb'_or, hzero, BitVec.or_zero, hvtop] at hres
  have hnat := congrArg BitVec.toNat hres
  rw [BitVec.extractLsb'_toNat, BitVec.toNat_ofNat, Nat.shiftRight_eq_div_pow] at hnat
  change _ = 0 at hnat
  omega

theorem IsLeaf.bit {i : Nat} (hi : i = 6 ∨ i = 7 ∨ i = 53 ∨ i = 54) :
    e.getLsbD i = (accessAttr flags ||| execAttr flags).getLsbD i := by
  obtain ⟨des, hdes, rfl⟩ := h.eq
  have hvtop : vtop pa < 2 ^ 50 ∧ vtop pa % 4096 = 0 := by
    unfold vtop u64 kernelAddrMask
    omega
  have haddr : (BitVec.ofNat 64 (vtop pa)).getLsbD i = false := by
    rcases hi with rfl | rfl | rfl | rfl
    · exact ofNat_low_bit hvtop.2 (by decide)
    · exact ofNat_low_bit hvtop.2 (by decide)
    · exact ofNat_high_bit (by omega)
    · exact ofNat_high_bit (by omega)
  have hmask : (des ||| commonAttr flags) &&& accessMask =
      (accessAttr flags ||| execAttr flags) &&& accessMask := by
    rw [BitVec.and_or_distrib_right, commonAttr_mask]
    rcases hdes with rfl | rfl <;> exact BitVec.zero_or
  rw [BitVec.getLsbD_or, haddr, Bool.false_or]
  exact getLsbD_mask hmask (by rcases hi with rfl | rfl | rfl | rfl <;> decide)

end

theorem execAttr_bits (flags : Flags) : (execAttr flags).getLsbD 6 = false ∧
    (execAttr flags).getLsbD 7 = false ∧ (execAttr flags).getLsbD 53 = !flags.has vmExec ∧
    (execAttr flags).getLsbD 54 = !flags.has vmExec := by
  unfold execAttr
  cases flags.has vmExec <;> decide

theorem accessAttr_bits (flags : Flags) :
    (accessAttr flags).getLsbD 53 = false ∧ (accessAttr flags).getLsbD 54 = false := by
  unfold accessAttr
  repeat' split
  all_goals decide

/-- Only `VM_RO` makes a leaf read-only, so with neither right asked for it can be written. -/
theorem write_iff (flags : Flags) :
    (flags &&& vmRwMask ≠ vmRo → flags.has vmWrite = true) ↔ flags &&& vmRwMask ≠ 0 := by
  have hread : flags &&& vmRo = if flags.getLsbD 20 then vmRo else 0 := BitVec.and_twoPow flags 20
  have hwrite : flags &&& vmWrite = if flags.getLsbD 21 then vmWrite else 0 :=
    BitVec.and_twoPow flags 21
  have hsplit : flags &&& vmRwMask = (flags &&& vmRo) ||| (flags &&& vmWrite) := by
    rw [← BitVec.and_or_distrib_left]
    rfl
  rw [hsplit, Flags.has, hread, hwrite]
  cases flags.getLsbD 20 <;> cases flags.getLsbD 21 <;> decide

theorem permits_iff {flags : Flags} {pa : Nat} {e : Pte} (h : IsLeaf flags pa e)
    (hpage : pa % 4096 = 0) (hlt : pa < 2 ^ 49) :
    Permits flags e ↔ flags &&& vmRwMask ≠ 0 := by
  obtain ⟨hx6, hx7, hx53, hx54⟩ := execAttr_bits flags
  obtain ⟨ha53, ha54⟩ := accessAttr_bits flags
  have h6 : e.getLsbD 6 = (accessAttr flags).getLsbD 6 := by
    rw [h.bit hpage hlt (by decide), BitVec.getLsbD_or, hx6, Bool.or_false]
  have h7 : e.getLsbD 7 = (accessAttr flags).getLsbD 7 := by
    rw [h.bit hpage hlt (by decide), BitVec.getLsbD_or, hx7, Bool.or_false]
  have h53 : e.getLsbD 53 = !flags.has vmExec := by
    rw [h.bit hpage hlt (by decide), BitVec.getLsbD_or, hx53, ha53, Bool.false_or]
  have h54 : e.getLsbD 54 = !flags.has vmExec := by
    rw [h.bit hpage hlt (by decide), BitVec.getLsbD_or, hx54, ha54, Bool.false_or]
  rw [← write_iff]
  constructor
  · intro hp hne
    exact hp.write (h7.trans ((accessAttr_write flags).2 hne))
  · intro hwrite
    constructor
    case write => exact fun hbit => hwrite ((accessAttr_write flags).1 (h7 ▸ hbit))
    case user => exact fun hbit => (accessAttr_user flags).1 (h6 ▸ hbit)
    case exec =>
      rw [h53, h54]
      simp

/-! ## What `pagetable_map` installs -/

def descriptor (mem : Nat → Nat → Pte) (root a : Nat) : Pte := (look mem root (vpn a)).2

theorem isLeaf_of_installed {flags : Flags} {n k pa m : Nat} {x : Nat × Pte}
    (h : Installed flags n k pa m x) (hpa : pa % 4096 = 0) (hlt : pa < 2 ^ 48)
    (hm : m < 68719476736) : ∃ pa', IsLeaf flags pa' x.2 ∧ pa' % 4096 = 0 ∧ pa' < 2 ^ 49 := by
  rcases h with rfl | ⟨s, hs, hlo, hhi, hle, hlt', hal, rfl⟩
  · exact ⟨_, .inl (pagetableChangePte_eq _ flags).symm, by omega, by omega⟩
  · exact ⟨_, .inr (pagetableChangePmde_eq _ flags).1.symm, by omega, by omega⟩

theorem isLeaf_of_mapped {flags : Flags} {root : Nat} {st st' : PtState} {va pa k a : Nat}
    (hmap : Mapped flags root st st' (vpn va) k pa) (hpa : pa % 4096 = 0) (hlt : pa < 2 ^ 48)
    (hbefore : translate st.mem root a = none) (hafter : translate st'.mem root a ≠ none) :
    ∃ pa', IsLeaf flags pa' (descriptor st'.mem root a) ∧ pa' % 4096 = 0 ∧ pa' < 2 ^ 49 := by
  by_cases hin : vpn va ≤ vpn a ∧ vpn a < vpn va + k
  · exact isLeaf_of_installed (hmap.installed (vpn a) (vpn_lt a) hin.1 hin.2) hpa hlt (vpn_lt a)
  · rw [translate_eq, (hmap.outside (vpn a) (vpn_lt a) hin).leaf_eq, ← translate_eq] at hafter
    exact absurd hbefore hafter

/-- **What a leaf grants.** No leaf that `pagetable_map` installs keeps to its flags: the
reserved bits 51 to 48 are not zero. Beside these, the leaf grants no access from EL0 and no
execution that the flags do not ask for, and it is writable only on request exactly when the
flags name a right at all. -/
theorem pagetable_map_grants_iff {root : Nat} {st st' : PtState} {va pa size a : Nat}
    {flags : Flags} {ret : Int} (hst : Tables root st) (hsize : size < 2 ^ 64)
    (hfree : ∀ a, va ≤ a → a < va + size → translate st.mem root a = none)
    (hrun : pagetableMap st root va pa size flags = .ok (ret, st'))
    (hbefore : translate st.mem root a = none) (hafter : translate st'.mem root a ≠ none) :
    (GrantsOnly flags (descriptor st'.mem root a) ↔ False) ∧
      (Permits flags (descriptor st'.mem root a) ↔ flags &&& vmRwMask ≠ 0) := by
  have hacc : Accepted va pa size := by
    by_contra hacc
    rw [pagetableMap, if_neg hacc] at hrun
    cases hrun
  obtain ⟨hva, hpa, k, hk, rfl⟩ := hacc.pages hsize
  have hphy : pa < 2 ^ 48 := hacc.2.2.1
  have hun := unmapped_of_translate hst hva.1 hfree
  have hout : Outcome flags root st _ _ _ _ _ _ := mapPgdRange_outcome hst hva hpa hk
  have hleaf : ∃ pa', IsLeaf flags pa' (descriptor st'.mem root a) ∧ pa' % 4096 = 0 ∧
      pa' < 2 ^ 49 := by
    rw [pagetableMap_eq hacc] at hrun
    generalize mapPgdRange flags st (ptov root) va pa (4096 * k) = res at hout hrun
    cases hout with
    | fault hbad => cases hrun
    | wild hblock _ => exact absurd (fun m hm hlo hhi _ => hun m hm hlo hhi) hblock
    | done _ _ hmap _ _ _ =>
      cases hrun
      exact isLeaf_of_mapped hmap hpa.1 hphy hbefore hafter
    | starved _ _ _ hmap _ _ =>
      cases hrun
      exact isLeaf_of_mapped hmap hpa.1 hphy hbefore hafter
  obtain ⟨pa', hleaf, hpage, hlt⟩ := hleaf
  exact ⟨iff_of_false (fun h => hleaf.reserved hpage hlt h.reserved) id,
    permits_iff hleaf hpage hlt⟩

theorem exists_of_map {β : Type} {res : Except Fault (Int × PtState)} {g : PtState → β}
    {ret : Int} {b : β} (h : res.toOption.map (fun x => (x.1, g x.2)) = some (ret, b)) :
    ∃ st', res = .ok (ret, st') ∧ g st' = b := by
  cases res with
  | error f => cases h
  | ok x =>
    cases h
    exact ⟨x.2, rfl, rfl⟩

/-- A page mapped with `VM_RO` permits no more than that. -/
theorem pagetable_map_grants_read_only :
    ∃ st', pagetableMap (newSpace [8192, 12288, 16384]) 4096 0 0x100000 4096 vmRo = .ok (0, st') ∧
      Permits vmRo (descriptor st'.mem 4096 0) := by
  have hrun : (pagetableMap (newSpace [8192, 12288, 16384]) 4096 0 0x100000 4096 vmRo).toOption.map
      (fun x => (x.1, translate x.2.mem 4096 0)) = some (0, some 0x100000) := by decide +kernel
  obtain ⟨st', hrun, htrans⟩ := exists_of_map (g := fun st => translate st.mem 4096 0) hrun
  have hafter : translate st'.mem 4096 0 ≠ none := by
    rw [htrans]
    exact Option.some_ne_none _
  refine ⟨st', hrun, (pagetable_map_grants_iff ?_ (by decide) ?_ hrun ?_ hafter).2.2 (by decide)⟩
  · exact newSpace_tables (by decide) (by decide) (by decide) (by decide)
  · exact fun a _ _ => newSpace_translate ..
  · exact newSpace_translate ..

/-- Mapped with no flags at all, a page can be written, and bit 48 of its descriptor is set. -/
theorem pagetable_map_grants_without_flags :
    ∃ st', pagetableMap (newSpace [8192, 12288, 16384]) 4096 0 0x100000 4096 0 = .ok (0, st') ∧
      (descriptor st'.mem 4096 0).getLsbD 7 = false ∧ Flags.has 0 vmWrite = false ∧
      (descriptor st'.mem 4096 0).extractLsb' 48 4 = 1 := by
  have hrun : (pagetableMap (newSpace [8192, 12288, 16384]) 4096 0 0x100000 4096 0).toOption.map
      (fun x => (x.1, descriptor x.2.mem 4096 0)) =
        some (0, pagetableChangePte 0x100000 0) := by decide +kernel
  obtain ⟨st', hrun, hdesc⟩ := exists_of_map (g := fun st => descriptor st.mem 4096 0) hrun
  refine ⟨st', hrun, ?_⟩
  rw [hdesc]
  decide +kernel

end SpringOs.PageTable
