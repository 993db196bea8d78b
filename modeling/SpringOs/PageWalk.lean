import SpringOs.AddressSpace

/-!
`pgtbl_walk` of `pagetable.c`, the walk the kernel does in software, beside the walk of
the architecture.

* **`pgtblWalk`**: the function, with the address macros as the compiler evaluates them:
  a bit-field narrower than an `int` is promoted to `int`, a wider one keeps its width;
* `pgtbl_walk_iff`: where an address leads somewhere, the two walks agree exactly on pages
  below 64 GiB and on the first byte of blocks below 2 GiB.
-/

namespace SpringOs.PageTable
open Kernel Lib.Word Lib.Radix

/-! ## The address macros -/

/-- `pud_block_addr`: an 18-bit field, shifted as an `int`. -/
def pudBlockAddrInt (e : Pte) : Nat := u64 (i32 (1073741824 * (e.extractLsb' 30 18).toNat))

/-- `pmd_block_addr`: a 27-bit field, shifted as an `int`. -/
def pmdBlockAddrInt (e : Pte) : Nat := u64 (i32 (pmdBlockAddr e))

/-- `pt_page_addr`: a 36-bit field, shifted within its 36 bits. -/
def ptPageAddr (e : Pte) : Nat := pteTableAddr e % 68719476736

/-- `pgtbl_walk`, on the table at physical address `root`. -/
def pgtblWalk (mem : Nat → Nat → Pte) (root va : Nat) : Except Fault Nat :=
  let pgde := mem root (pgdIndex va)
  if !pgde.isValid || !pgde.isTable then .error (.assertion .pgtblWalk)
  else
    let pude := mem (pteTableAddr pgde) (pudIndex va)
    if !pude.isValid then .error (.assertion .pgtblWalk)
    else if !pude.isTable then .ok (pudBlockAddrInt pude)
    else
      let pmde := mem (pteTableAddr pude) (pmdIndex va)
      if !pmde.isValid then .error (.assertion .pgtblWalk)
      else if !pmde.isTable then .ok (pmdBlockAddrInt pmde)
      else
        let pte := mem (pteTableAddr pmde) (ptIndex va)
        if !pte.isValid then .error (.assertion .pgtblWalk)
        else .ok (ptPageAddr pte ||| va % 4096)

theorem pmdBlockAddr_lt (e : Pte) : pmdBlockAddr e % 2097152 = 0 ∧ pmdBlockAddr e < 2 ^ 48 := by
  have h := (pteTableAddr_page e).2
  rw [pmdBlockAddr_eq]
  omega

/-- With an offset into the block, too, the result can only be right for offset 0. -/
theorem pmdBlockAddrInt_eq_iff (e : Pte) {off : Nat} (hoff : off < 2097152) :
    pmdBlockAddrInt e = pmdBlockAddr e + off ↔ off = 0 ∧ pmdBlockAddr e + off < 2147483648 := by
  obtain ⟨hal, hlt⟩ := pmdBlockAddr_lt e
  unfold pmdBlockAddrInt u64 i32
  omega

theorem ptPageAddr_or (e : Pte) {off : Nat} (hoff : off < 4096) :
    (ptPageAddr e ||| off) = ptPageAddr e + off := by
  have h := (pteTableAddr_page e).1
  have hpage : ptPageAddr e = 2 ^ 12 * (ptPageAddr e / 4096) := by
    unfold ptPageAddr
    omega
  rw [hpage, Nat.two_pow_add_eq_or_of_lt hoff]

/-! ## The two walks -/

theorem child_eq_some_iff {e : Pte} {c : Nat} :
    child e = some c ↔ e.isValid = true ∧ e.isTable = true ∧ pteTableAddr e = c := by
  unfold child
  cases e.isValid <;> cases e.isTable <;> simp

variable {mem : Nat → Nat → Pte} {root va : Nat}

/-- The walk of an address that leads somewhere: two tables, then a third one and a page,
or a block. -/
theorem translate_cases {x : Nat} (h : translate mem root va = some x) :
    ∃ pud pmd, child (mem root (pgdIndex va)) = some pud ∧
      child (mem pud (pudIndex va)) = some pmd ∧
      ((∃ pt, child (mem pmd (pmdIndex va)) = some pt ∧
          (mem pt (ptIndex va)).isValid = true ∧
          x = pteTableAddr (mem pt (ptIndex va)) + va % 4096 ∧
          (look mem root (vpn va)).1 = 0) ∨
        (child (mem pmd (pmdIndex va)) = none ∧ (mem pmd (pmdIndex va)).isValid = true ∧
          x = pmdBlockAddr (mem pmd (pmdIndex va)) + va % 2097152 ∧
          (look mem root (vpn va)).1 = 1)) := by
  have h3 : vpn va / 512 ^ (2 + 1) % 512 = pgdIndex va := by unfold vpn pgdIndex; omega
  have h2 : vpn va / 512 ^ (1 + 1) % 512 = pudIndex va := by unfold vpn pudIndex; omega
  have h1 : vpn va / 512 ^ (0 + 1) % 512 = pmdIndex va := by unfold vpn pmdIndex; omega
  unfold translate at h
  obtain ⟨pud, hpud, h⟩ := Option.bind_eq_some_iff.1 h
  obtain ⟨pmd, hpmd, h⟩ := Option.bind_eq_some_iff.1 h
  have hlook : look mem root (vpn va) = walk child 512 mem (vpn va) pmd 1 :=
    (walk_succ_some (h3.symm ▸ hpud)).trans (walk_succ_some (h2.symm ▸ hpmd))
  refine ⟨pud, pmd, hpud, hpmd, ?_⟩
  rw [hlook]
  cases hpt : child (mem pmd (pmdIndex va)) with
  | some pt =>
    rw [walk_succ_some (h1.symm ▸ hpt)]
    simp only [hpt] at h
    split at h
    · rename_i hbits
      exact .inl ⟨pt, rfl, (Bool.and_eq_true_iff.1 hbits).1, (Option.some.inj h).symm, rfl⟩
    · cases h
  | none =>
    rw [walk_of_none (.inr (h1.symm ▸ hpt))]
    simp only [hpt] at h
    split at h
    · rename_i hvalid
      exact .inr ⟨rfl, hvalid, (Option.some.inj h).symm, rfl⟩
    · cases h

theorem pgtblWalk_page {pud pmd pt : Nat} (hpud : child (mem root (pgdIndex va)) = some pud)
    (hpmd : child (mem pud (pudIndex va)) = some pmd)
    (hpt : child (mem pmd (pmdIndex va)) = some pt) (hv : (mem pt (ptIndex va)).isValid = true) :
    pgtblWalk mem root va = .ok (ptPageAddr (mem pt (ptIndex va)) + va % 4096) := by
  obtain ⟨hv3, ht3, rfl⟩ := child_eq_some_iff.1 hpud
  obtain ⟨hv2, ht2, rfl⟩ := child_eq_some_iff.1 hpmd
  obtain ⟨hv1, ht1, rfl⟩ := child_eq_some_iff.1 hpt
  simp [pgtblWalk, hv3, ht3, hv2, ht2, hv1, ht1, hv, ptPageAddr_or _ (Nat.mod_lt va _)]

/-- On a page the walk in software keeps the low 36 bits. -/
theorem pgtblWalk_of_page {x : Nat} (h : translate mem root va = some x)
    (hpage : (look mem root (vpn va)).1 = 0) :
    pgtblWalk mem root va = .ok (x % 68719476736) ∧ x % 4096 = va % 4096 := by
  obtain ⟨pud, pmd, hpud, hpmd, ⟨pt, hpt, hv, rfl, -⟩ | ⟨-, -, -, hone⟩⟩ := translate_cases h
  · have hal := (pteTableAddr_page (mem pt (ptIndex va))).1
    rw [pgtblWalk_page hpud hpmd hpt hv, ptPageAddr, Except.ok.injEq]
    omega
  · omega

theorem pgtblWalk_block {pud pmd : Nat} (hpud : child (mem root (pgdIndex va)) = some pud)
    (hpmd : child (mem pud (pudIndex va)) = some pmd) (hnone : child (mem pmd (pmdIndex va)) = none)
    (hv : (mem pmd (pmdIndex va)).isValid = true) :
    pgtblWalk mem root va = .ok (pmdBlockAddrInt (mem pmd (pmdIndex va))) := by
  obtain ⟨hv3, ht3, rfl⟩ := child_eq_some_iff.1 hpud
  obtain ⟨hv2, ht2, rfl⟩ := child_eq_some_iff.1 hpmd
  have ht1 : (mem (pteTableAddr (mem (pteTableAddr (mem root (pgdIndex va))) (pudIndex va)))
      (pmdIndex va)).isTable = false := by
    simpa [child, hv] using hnone
  simp [pgtblWalk, hv3, ht3, hv2, ht2, hv, ht1]

/-- **`pgtbl_walk`** against the architecture, for any contents of the tables: on a page
it agrees when the field shift keeps the whole address, on a block when that holds and the
address is the block's first. -/
theorem pgtbl_walk_iff {mem : Nat → Nat → Pte} {root va x : Nat}
    (h : translate mem root va = some x) :
    pgtblWalk mem root va = .ok x ↔
      if (look mem root (vpn va)).1 = 0 then x < 68719476736
      else va % 2097152 = 0 ∧ x < 2147483648 := by
  obtain ⟨pud, pmd, hpud, hpmd, ⟨pt, hpt, hv, rfl, hend⟩ | ⟨hnone, hv, rfl, hend⟩⟩ :=
    translate_cases h
  · have hpage := (pteTableAddr_page (mem pt (ptIndex va))).1
    rw [pgtblWalk_page hpud hpmd hpt hv, Except.ok.injEq, if_pos hend, ptPageAddr]
    omega
  · rw [pgtblWalk_block hpud hpmd hnone hv, Except.ok.injEq, if_neg (by omega)]
    exact pmdBlockAddrInt_eq_iff _ (Nat.mod_lt va (by decide))

def blockSpace : PtState :=
  ((pagetableMap (newSpace [8192, 12288]) 4096 0 2097152 2097152 vmHuge2M).toOption.map
    Prod.snd).getD (newSpace [])

theorem pgtbl_walk_iff_block :
    translate blockSpace.mem 4096 0 = some 2097152 ∧
      pgtblWalk blockSpace.mem 4096 0 = .ok 2097152 := by
  have h : translate blockSpace.mem 4096 0 = some 2097152 := by decide +kernel
  exact ⟨h, (pgtbl_walk_iff h).2 (by decide +kernel)⟩

/-- In a block the software walk forgets the offset. -/
theorem pgtbl_walk_drops_offset :
    (pagetableMap (newSpace [8192, 12288]) 4096 0 2097152 2097152 vmHuge2M).toOption.map
        (fun x => (x.1, translate x.2.mem 4096 4096, (pgtblWalk x.2.mem 4096 4096).toOption)) =
      some (0, some 2101248, some 2097152) := by
  decide +kernel

end SpringOs.PageTable
