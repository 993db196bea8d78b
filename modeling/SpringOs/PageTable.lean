import SpringOs.Kernel
import SpringOs.Lib.Radix

/-!
The page tables of `pagetable.c`: descriptors, the walk of the architecture, and
`pagetable_map` with the four loops under it.

Memory is seen as far as page tables go: `mem p i` is entry `i` of the page at
physical address `p`. The kernel reaches it through the direct map. A table has 512
entries; an access past them is the fault `outOfBounds`. `page_alloc` hands out the
pages of a list, and null when it is empty.
-/

namespace SpringOs.PageTable
open Kernel Lib.Word Lib.Radix

/-! ## Descriptors -/

abbrev Pte := BitVec 64

def s1DesBlock : Pte := 0b01
def s1DesTable : Pte := 0b11
def s1DesPage : Pte := 0b11
def s1TableUap : Pte := 0x2000000000000000
def s1TableUxn : Pte := 0x1000000000000000
def s1Pxn : Pte := 0x0020000000000000
def s1Xn : Pte := 0x0040000000000000
def s1Pfnmap : Pte := 0x0080000000000000
def s1Devmap : Pte := 0x0100000000000000
def s1Shared : Pte := 0x0200000000000000
def s1Ns : Pte := 0x20
def s1ApRw : Pte := 0
def s1ApRwUrw : Pte := 0x40
def s1ApRo : Pte := 0x80
def s1ApRoUro : Pte := 0xc0
def s1ShInner : Pte := 0x300
def s1Af : Pte := 0x400
def s1NG : Pte := 0x800

/-- `S1_ATTR_IDX`. -/
def s1AttrIdx (n : Pte) : Pte := (n &&& 0xf) <<< 2

/-- The `VM_*` flags of a mapping, an `int`. -/
abbrev Flags := BitVec 32

def vmIo : Flags := 0x1
def vmNormalNc : Flags := 0x4
def vmWt : Flags := 0x8
def vmTypeMask : Flags := 0xf
def vmPfnmap : Flags := 0x100
def vmHuge2M : Flags := 0x200
def vmHuge1G : Flags := 0x400
def vmDevmap : Flags := 0x800
def vmShared : Flags := 0x1000
def vmKern : Flags := 0x2000
def vmPma : Flags := 0x10000
def vmRo : Flags := 0x100000
def vmRwMask : Flags := 0x300000
def vmExec : Flags := 0x400000

def Flags.has (flags bits : Flags) : Bool := flags &&& bits != 0

/-- The attributes of a table descriptor, the same at every level. -/
def tableAttr (flags : Flags) : Pte :=
  s1DesTable ||| if flags.has vmKern then s1TableUap ||| s1TableUxn else 0

/-- `MT_*`, by the memory type of the flags. -/
def memType (flags : Flags) : Pte :=
  if flags &&& vmTypeMask = vmNormalNc then 3
  else if flags &&& vmTypeMask = vmIo then 0
  else if flags &&& vmTypeMask = vmWt then 5
  else 4

def accessAttr (flags : Flags) : Pte :=
  if flags.has vmKern then
    if flags &&& vmRwMask = vmRo then s1ApRo else s1ApRw
  else s1NG ||| if flags &&& vmRwMask = vmRo then s1ApRoUro else s1ApRwUrw

/-- The attributes of a page or block descriptor beside its type. -/
def commonAttr (flags : Flags) : Pte :=
  (s1Af ||| s1Ns ||| s1ShInner) ||| s1AttrIdx (memType flags) ||| accessAttr flags |||
    (if flags.has vmExec then 0 else s1Xn ||| s1Pxn) |||
    (if flags.has vmPfnmap then s1Pfnmap else 0) |||
    (if flags.has vmDevmap then s1Devmap else 0) |||
    if flags.has (vmShared ||| vmPma) then s1Shared else 0

/-- What `pagetable_change_pgde`, `_pude` and `_pmde` store for a table. -/
def tableEntry (addr : Nat) (flags : Flags) : Pte := .ofNat 64 (vtop addr) ||| tableAttr flags

/-- What `pagetable_change_pmde` stores for a block; `addr` is physical. -/
def blockEntry (addr : Nat) (flags : Flags) : Pte :=
  .ofNat 64 (vtop addr) ||| (s1DesBlock ||| commonAttr flags)

/-- What `pagetable_change_pte` stores; `addr` is physical. -/
def pageEntry (addr : Nat) (flags : Flags) : Pte :=
  .ofNat 64 (vtop addr) ||| (s1DesPage ||| commonAttr flags)

/-! ## The fields of a descriptor -/

def Pte.isValid (e : Pte) : Bool := e.getLsbD 0
def Pte.isTable (e : Pte) : Bool := e.getLsbD 1

/-- `pte_table_addr`, and `pt_page_addr`, whose field lies at the same place. -/
def pteTableAddr (e : Pte) : Nat := 4096 * (e.extractLsb' 12 36).toNat

def pmdBlockAddr (e : Pte) : Nat := 2097152 * (e.extractLsb' 21 27).toNat

/-- The next table, where a descriptor above the last level names one. -/
def child (e : Pte) : Option Nat :=
  if e.isValid && e.isTable then some (pteTableAddr e) else none

def pgdIndex (va : Nat) : Nat := va / 549755813888 % 512
def pudIndex (va : Nat) : Nat := va / 1073741824 % 512
def pmdIndex (va : Nat) : Nat := va / 2097152 % 512
def ptIndex (va : Nat) : Nat := va / 4096 % 512

/-- The walk of the architecture for the low 48 bits of an address: level 0 and 1
tables, a level 2 table or 2 MiB block, a level 3 page. -/
def translate (mem : Nat → Nat → Pte) (root va : Nat) : Option Nat := do
  let pud ← child (mem root (pgdIndex va))
  let pmd ← child (mem pud (pudIndex va))
  let pmde := mem pmd (pmdIndex va)
  match child pmde with
  | some pt =>
    let pte := mem pt (ptIndex va)
    if pte.isValid && pte.isTable then some (pteTableAddr pte + va % 4096) else none
  | none => if pmde.isValid then some (pmdBlockAddr pmde + va % 2097152) else none

/-! ## `pagetable.c` -/

/-- The tables, the pages `page_alloc` will hand out, and whether it has returned
null. -/
structure PtState where
  mem : Nat → Nat → Pte
  free : List Nat
  refused : Bool

def pageAlloc (st : PtState) : Option Nat × PtState :=
  match st.free with
  | [] => (none, { st with refused := true })
  | page :: free => (some (ptov page), { st with free := free })

def PtState.load (st : PtState) (table i : Nat) : Except Fault Pte :=
  if i < 512 then .ok (st.mem (vtop table) i) else .error .outOfBounds

/-- A store to an entry just loaded. -/
def PtState.store (st : PtState) (table i : Nat) (e : Pte) : PtState :=
  { st with mem := setEntry st.mem (vtop table) i e }

/-- `memset(table, 0, PAGE_SIZE)`. -/
def PtState.clear (st : PtState) (table : Nat) : PtState :=
  { st with mem := Function.update st.mem (vtop table) fun _ => 0 }

def pageSize : Nat := 4096
def pmdSize : Nat := 2097152
def pudSize : Nat := 1073741824
def pgdSize : Nat := 549755813888

/-- The table an entry names, made first where the entry is null: the lines that
`map_pgd_range`, `map_pud_range` and `map_pmd_range` share. -/
def nextTable (st : PtState) (table i : Nat) (e : Pte) (flags : Flags) (errno : Int) :
    Except Int Nat × PtState :=
  if e = 0 then
    match pageAlloc st with
    | (none, st) => (.error errno, st)
    | (some next, st) => (.ok next, (st.clear next).store table i (tableEntry next flags))
  else (.ok (ptov (pteTableAddr e)), st)

/-- Rounds enough for any loop over a table: each round starts with a load, and a
table has 512 entries. -/
def rounds : Nat := 513

def mapPtLoop (flags : Flags) (pt last : Nat) :
    Nat → PtState → Nat → Nat → Nat → Except Fault PtState
  | 0, _, _, _, _ => .error .hang
  | fuel + 1, st, i, base, phy => do
    let e ← st.load pt i
    if e ≠ 0 then .error (.assertion .mapPtRange)
    else
      let st := st.store pt i (pageEntry phy flags)
      let base := u64 (base + pageSize)
      if base ≠ last then mapPtLoop flags pt last fuel st (i + 1) base (u64 (phy + pageSize))
      else .ok st

/-- `map_pt_range`. -/
def mapPtRange (flags : Flags) (st : PtState) (pt base last phy : Nat) :
    Except Fault (Int × PtState) :=
  if pmdIndex (u64 (last - 1)) ≠ pmdIndex base then .error (.assertion .mapPtRange)
  else (mapPtLoop flags pt last rounds st (ptIndex base) base phy).map fun st => (0, st)

def canMapPmdHuge (flags : Flags) (pmde : Pte) (va pa size : Nat) : Bool :=
  flags.has vmHuge2M && pmde == 0 && isAligned va pmdSize && isAligned pa pmdSize &&
    isAligned size pmdSize

/-- One round of `map_pmd_range`: a block, or pages in a table. -/
def mapPmdEntry (flags : Flags) (st : PtState) (pmd i : Nat) (e : Pte)
    (base pa size mapSize : Nat) : Except Fault (Int × PtState) :=
  if canMapPmdHuge flags e base pa size then .ok (0, st.store pmd i (blockEntry pa flags))
  else
    match nextTable st pmd i e flags (-enomem) with
    | (.error ret, st) => .ok (ret, st)
    | (.ok pt, st) => mapPtRange flags st pt base (u64 (base + mapSize)) pa

def mapPmdLoop (flags : Flags) (pmd : Nat) :
    Nat → PtState → Nat → Nat → Nat → Nat → Nat → Except Fault (Int × PtState)
  | 0, _, _, _, _, _, _ => .error .hang
  | fuel + 1, st, i, base, pa, size, mapSize => do
    let e ← st.load pmd i
    let (ret, st) ← mapPmdEntry flags st pmd i e base pa size mapSize
    if ret ≠ 0 then .ok (ret, st)
    else
      let left := size - mapSize
      if 0 < left then
        mapPmdLoop flags pmd fuel st (i + 1) (u64 (base + mapSize)) (u64 (pa + mapSize)) left
          (if left > pmdSize then pmdSize else left)
      else .ok (0, st)

/-- `map_pmd_range`: the first round ends at the next 2 MiB boundary. -/
def mapPmdRange (flags : Flags) (st : PtState) (pmd base pa size : Nat) :
    Except Fault (Int × PtState) :=
  let alignedBase := alignUp base pmdSize
  let mapSize :=
    if alignedBase > base ∧ alignedBase - base < size then alignedBase - base
    else if size > pmdSize then pmdSize else size
  mapPmdLoop flags pmd rounds st (pmdIndex base) base pa size mapSize

def canMapPudHuge (flags : Flags) (pude : Pte) (va pa size : Nat) : Bool :=
  flags.has vmHuge1G && pude == 0 && isAligned va pudSize && isAligned pa pudSize &&
    isAligned size pudSize

/-- The loop of `map_pud_range` and `map_pgd_range`. Its rounds are `span` bytes long
wherever they start; `huge` is the test for a block, which stops at `assert(0)`. -/
def mapTableLoop (flags : Flags) (span : Nat) (errno : Int) (huge : Pte → Nat → Nat → Nat → Bool)
    (inner : PtState → Nat → Nat → Nat → Nat → Except Fault (Int × PtState)) (table : Nat) :
    Nat → PtState → Nat → Nat → Nat → Nat → Except Fault (Int × PtState)
  | 0, _, _, _, _, _ => .error .hang
  | fuel + 1, st, i, va, pa, size => do
    let e ← st.load table i
    if huge e va pa size then .error (.assertion .mapPudRange)
    else
      match nextTable st table i e flags errno with
      | (.error ret, st) => .ok (ret, st)
      | (.ok next, st) =>
        let mapSize := if size > span then span else size
        let (ret, st) ← inner st next va pa mapSize
        if ret ≠ 0 then .ok (ret, st)
        else if 0 < size - mapSize then
          mapTableLoop flags span errno huge inner table fuel st (i + 1) (u64 (va + mapSize))
            (u64 (pa + mapSize)) (size - mapSize)
        else .ok (0, st)

/-- `map_pud_range`. -/
def mapPudRange (flags : Flags) (st : PtState) (pud va pa size : Nat) :
    Except Fault (Int × PtState) :=
  mapTableLoop flags pudSize (-enomem) (canMapPudHuge flags) (mapPmdRange flags) pud rounds st
    (pudIndex va) va pa size

/-- `map_pgd_range`. -/
def mapPgdRange (flags : Flags) (st : PtState) (pgd va pa size : Nat) :
    Except Fault (Int × PtState) :=
  mapTableLoop flags pgdSize (-1) (fun _ _ _ _ => false) (mapPudRange flags) pgd rounds st
    (pgdIndex va) va pa size

def vaMax : Nat := 18446744073709551615
def paMax : Nat := 281474976710656

/-- The assertions at the head of `pagetable_map`. -/
def Accepted (va pa size : Nat) : Prop :=
  size > 0 ∧ (va < vaMax ∧ u64 (va + size) < vaMax) ∧ pa < paMax ∧
    isAligned va pageSize ∧ isAligned size pageSize ∧ isAligned pa pageSize

instance (va pa size : Nat) : Decidable (Accepted va pa size) :=
  inferInstanceAs (Decidable (_ ∧ _))

/-- `pagetable_map`, on the table at physical address `root`. -/
def pagetableMap (st : PtState) (root va pa size : Nat) (flags : Flags) :
    Except Fault (Int × PtState) :=
  if Accepted va pa size then do
    let (ret, st) ← mapPgdRange flags st (ptov root) va pa size
    .ok (if ret ≠ 0 then -1 else 0, st)
  else .error (.assertion .pagetableMap)

/-! ## Descriptors read back -/

/-- Attributes that keep off the address field, the reserved bits behind it and the two type
bits. -/
structure OffField (a : Pte) : Prop where
  field : a.extractLsb' 12 36 = 0
  reserved : a.extractLsb' 48 4 = 0
  bit0 : a.getLsbD 0 = false
  bit1 : a.getLsbD 1 = false

theorem OffField.or {a c : Pte} (ha : OffField a) (hc : OffField c) : OffField (a ||| c) := by
  constructor
  · rw [BitVec.extractLsb'_or, ha.field, hc.field]
    rfl
  · rw [BitVec.extractLsb'_or, ha.reserved, hc.reserved]
    rfl
  · rw [BitVec.getLsbD_or, ha.bit0, hc.bit0]
    rfl
  · rw [BitVec.getLsbD_or, ha.bit1, hc.bit1]
    rfl

theorem accessAttr_off (flags : Flags) : OffField (accessAttr flags) := by
  unfold accessAttr
  repeat' split
  all_goals exact ⟨by decide, by decide, by decide, by decide⟩

theorem memType_off (flags : Flags) : OffField (s1AttrIdx (memType flags)) := by
  unfold memType
  repeat' split
  all_goals exact ⟨by decide, by decide, by decide, by decide⟩

theorem ite_off (c : Bool) {a a' : Pte} (ha : OffField a) (ha' : OffField a') :
    OffField (if c then a else a') := by
  cases c
  · exact ha'
  · exact ha

theorem commonAttr_off (flags : Flags) : OffField (commonAttr flags) := by
  have hzero : OffField 0 := ⟨by decide, by decide, by decide, by decide⟩
  refine (((((OffField.or ?_ (memType_off flags)).or (accessAttr_off flags)).or ?_).or ?_).or
    ?_).or ?_
  · exact ⟨by decide, by decide, by decide, by decide⟩
  · exact ite_off _ hzero ⟨by decide, by decide, by decide, by decide⟩
  · exact ite_off _ ⟨by decide, by decide, by decide, by decide⟩ hzero
  · exact ite_off _ ⟨by decide, by decide, by decide, by decide⟩ hzero
  · exact ite_off _ ⟨by decide, by decide, by decide, by decide⟩ hzero

theorem pteTableAddr_eq (e : Pte) : pteTableAddr e = 4096 * (e.toNat / 4096 % 68719476736) := by
  rw [pteTableAddr, BitVec.extractLsb'_toNat, Nat.shiftRight_eq_div_pow]

theorem pmdBlockAddr_eq (e : Pte) : pmdBlockAddr e = 2097152 * (pteTableAddr e / 2097152) := by
  rw [pteTableAddr_eq, pmdBlockAddr, BitVec.extractLsb'_toNat, Nat.shiftRight_eq_div_pow]
  omega

theorem pteTableAddr_page (e : Pte) : pteTableAddr e % 4096 = 0 ∧ pteTableAddr e < 2 ^ 48 := by
  rw [pteTableAddr_eq]
  omega

theorem pteTableAddr_or {x : Nat} (hx : x < 2 ^ 64) (hpage : x % 4096 = 0) {a : Pte}
    (ha : a.extractLsb' 12 36 = 0) : pteTableAddr (.ofNat 64 x ||| a) = x % 2 ^ 48 := by
  have hor : pteTableAddr (.ofNat 64 x ||| a) = pteTableAddr (.ofNat 64 x) := by
    unfold pteTableAddr
    rw [BitVec.extractLsb'_or, ha]
    simp
  rw [hor, pteTableAddr_eq, BitVec.toNat_ofNat, Nat.mod_eq_of_lt hx]
  omega

theorem ofNat_bits {x : Nat} (hpage : x % 4096 = 0) :
    (BitVec.ofNat 64 x).getLsbD 0 = false ∧ (BitVec.ofNat 64 x).getLsbD 1 = false := by
  have h0 : x.testBit 0 = false := by rw [Nat.testBit_zero]; simp; omega
  have h1 : x.testBit 1 = false := by rw [Nat.testBit_succ, Nat.testBit_zero]; simp; omega
  constructor
  · rw [BitVec.getLsbD_ofNat, h0]
    rfl
  · rw [BitVec.getLsbD_ofNat, h1]
    rfl

theorem vtop_page {addr : Nat} (hpage : addr % 4096 = 0) :
    vtop addr < 2 ^ 64 ∧ vtop addr % 4096 = 0 ∧ vtop addr % 2 ^ 48 = addr % 2 ^ 48 := by
  unfold vtop u64 kernelAddrMask
  omega

theorem pageEntry_eq {addr : Nat} (flags : Flags) (hpage : addr % 4096 = 0) :
    (pageEntry addr flags).isValid = true ∧ (pageEntry addr flags).isTable = true ∧
      pteTableAddr (pageEntry addr flags) = addr % 2 ^ 48 := by
  obtain ⟨hlt, hal, hmod⟩ := vtop_page hpage
  have hoff := commonAttr_off flags
  refine ⟨?_, ?_, ?_⟩
  · simp [Pte.isValid, pageEntry, s1DesPage]
  · simp [Pte.isTable, pageEntry, s1DesPage]
  · rw [pageEntry, pteTableAddr_or hlt hal, hmod]
    rw [BitVec.extractLsb'_or, hoff.field]
    decide

theorem blockEntry_eq {addr : Nat} (flags : Flags) (hpage : addr % 2097152 = 0) :
    (blockEntry addr flags).isValid = true ∧ (blockEntry addr flags).isTable = false ∧
      pmdBlockAddr (blockEntry addr flags) = addr % 2 ^ 48 := by
  obtain ⟨hlt, hal, hmod⟩ := vtop_page (show addr % 4096 = 0 by omega)
  have hoff := commonAttr_off flags
  refine ⟨?_, ?_, ?_⟩
  · simp [Pte.isValid, blockEntry, s1DesBlock]
  · rw [Pte.isTable, blockEntry, BitVec.getLsbD_or, BitVec.getLsbD_or, (ofNat_bits hal).2,
      hoff.bit1]
    decide
  · rw [pmdBlockAddr_eq, blockEntry, pteTableAddr_or hlt hal, hmod]
    · omega
    · rw [BitVec.extractLsb'_or, hoff.field]
      decide

theorem tableEntry_eq {page : Nat} (flags : Flags) (h : page < 2 ^ 48) (hpage : page % 4096 = 0) :
    (tableEntry (ptov page) flags).isValid = true ∧
      child (tableEntry (ptov page) flags) = some page := by
  have hv : (tableEntry (ptov page) flags).isValid = true := by
    simp [Pte.isValid, tableEntry, tableAttr, s1DesTable]
  have ht : (tableEntry (ptov page) flags).isTable = true := by
    simp [Pte.isTable, tableEntry, tableAttr, s1DesTable]
  refine ⟨hv, ?_⟩
  rw [child, hv, ht, tableEntry, vtop_ptov h, pteTableAddr_or (by omega) hpage]
  · simp
    omega
  · unfold tableAttr
    split <;> decide

/-! ## The walk of the architecture -/

/-- What the end of a walk stands for: a page, a 2 MiB block, or nothing. -/
def leaf (n : Nat) : Nat × Pte → Option Nat
  | (0, e) => if e.isValid && e.isTable then some (pteTableAddr e) else none
  | (1, e) => if e.isValid then some (pmdBlockAddr e + 4096 * (n % 512)) else none
  | _ => none

def look (mem : Nat → Nat → Pte) (root n : Nat) : Nat × Pte := walk child 512 mem n root 3

/-- The page number of an address within the 48 bits a table covers. -/
def vpn (va : Nat) : Nat := va % 281474976710656 / 4096

theorem vpn_lt (va : Nat) : vpn va < 68719476736 := by
  unfold vpn
  omega

theorem translate_eq (mem : Nat → Nat → Pte) (root va : Nat) :
    translate mem root va = (leaf (vpn va) (look mem root (vpn va))).map (· + va % 4096) := by
  have h3 : vpn va / 512 ^ 3 % 512 = pgdIndex va := by unfold vpn pgdIndex; omega
  have h2 : vpn va / 512 ^ 2 % 512 = pudIndex va := by unfold vpn pudIndex; omega
  have h1 : vpn va / 512 ^ 1 % 512 = pmdIndex va := by unfold vpn pmdIndex; omega
  have h0 : vpn va % 512 = ptIndex va := by unfold vpn ptIndex; omega
  have hblock : va % 2097152 = 4096 * (vpn va % 512) + va % 4096 := by unfold vpn; omega
  unfold translate look
  simp only [walk, h3, h2, h1, h0]
  cases hpgd : child (mem root (pgdIndex va)) with
  | none => rfl
  | some pud =>
    cases hpud : child (mem pud (pudIndex va)) with
    | none => simp [hpud, leaf]
    | some pmd =>
      cases hpmd : child (mem pmd (pmdIndex va)) with
      | none =>
        simp only [Option.bind_eq_bind, Option.bind_some, hpud, hpmd, leaf, hblock]
        split
        · simp [Nat.add_assoc]
        · rfl
      | some pt =>
        simp only [Option.bind_eq_bind, Option.bind_some, hpud, hpmd, leaf]
        split <;> rfl

end SpringOs.PageTable
