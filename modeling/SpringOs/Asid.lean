import Mathlib.Data.Nat.Find
import SpringOs.Lib.Machine
import SpringOs.Kernel
import SpringOs.Bitmap

/-!
`src/asid.c`: the identifiers of address spaces, handed out from a bitmap.

* `asidInit_inv`: after `asid_init` the bits of the two fixed identifiers are set, and those
  from `ASID_MAX` on up to twice that;
* `asidAlloc_spec`: `asid_alloc` returns the least identifier that is not live, or 0 when all
  below `ASID_MAX` are;
* `steps_inv`: along every run the bitmap holds the live identifiers and the fixed ones;
* `asid_alloc_right_iff`: which calls keep to the identifiers the machine has.

`asid_max` is the larger of what the machine has and of `ASID_MAX`, so identifiers the machine
does not have are handed out once its own are all live.
-/

namespace SpringOs.Asid
open Lib.Word Lib.Machine Kernel Bitmap

/-! ## The code -/

/-- `ASID_MAX`, also the number of words of `asid_bitmap`. -/
def asidMax : Nat := 4096
def asidFixedShared : Nat := 0
def asidFixedKernel : Nat := 1
def asidUserBase : Nat := 2

/-- What `arch_asid_max` returns. -/
def archAsidMax : Int := 256

/-- `asid_bitmap` and the variable `asid_max`. -/
structure State where
  asidBitmap : BitmapT
  asidMax : Int

/-- Both are zero when the kernel starts. -/
def boot : State := ⟨fun _ => 0#64, 0⟩

/-- The index as far as it counts: its word is an `unsigned int`. -/
def cut (index : Nat) : Nat := index % 274877906944

/-- `bitmap_set_bit(asid_bitmap, index)`. -/
def setBit (s : State) (index : Nat) : Except Fault State :=
  if cut index / 64 < asidMax then
    .ok { s with asidBitmap := bitmapSetBit s.asidBitmap (cut index) }
  else .error .outOfBounds

/-- `bitmap_clear_bit(asid_bitmap, index)`. -/
def clearBit (s : State) (index : Nat) : Except Fault State :=
  if cut index / 64 < asidMax then
    .ok { s with asidBitmap := bitmapClearBit s.asidBitmap (cut index) }
  else .error .outOfBounds

/-- The loop of `bitmap_set_bits(asid_bitmap, index, len)` after `len` rounds. -/
def setBits (s : State) (index : Nat) : Nat → Except Fault State
  | 0 => .ok s
  | len + 1 => do setBit (← setBits s index len) (index + len)

/-- `bitmap_find_next_0(asid_bitmap, size, start)`, which reads words up to `size / 8`. -/
def findNext0 (s : State) (size start : Nat) : Except Fault Int :=
  if size / 8 ≤ asidMax then .ok (bitmapFindNext0 s.asidBitmap size start)
  else .error .outOfBounds

def asidAlloc (s : State) : Except Fault (Int × State) :=
  if s.asidMax ≤ asidUserBase then .ok (0, s)
  else do
    let asid ← findNext0 s (u64 s.asidMax) asidUserBase
    if asid ≥ s.asidMax then .ok (0, s)
    else return (asid, ← setBit s (u64 asid))

def asidFree (s : State) (asid : Int) : Except Fault State :=
  if asid < s.asidMax ∧ asid ≥ asidUserBase then clearBit s (u64 asid)
  else .error (.assertion .asidFree)

def asidInit (s : State) : Except Fault State := do
  let s := { s with asidMax := max archAsidMax asidMax }
  if s.asidMax > (asidUserBase : Int) then
    let s ← setBits s (u64 s.asidMax) asidMax
    let s ← setBit s asidFixedShared
    setBit s asidFixedKernel
  else .error (.assertion .asidInit)

/-! ## Runs -/

/-- The allocator and the identifiers that were handed out and not given back. -/
structure Sys where
  state : State
  live : List Int

inductive Op
  | alloc
  | free (asid : Int)

def step (s : Sys) : Op → Option Sys
  | .alloc => (asidAlloc s.state).toOption.map fun (asid, state) =>
      ⟨state, if asid = 0 then s.live else asid :: s.live⟩
  | .free asid => (asidFree s.state asid).toOption.map fun state => ⟨state, s.live.erase asid⟩

def okOp (s : Sys) : Op → Prop
  | .alloc => True
  | .free asid => asid ∈ s.live

/-- The call returns an identifier of the machine that is not live, or 0 exactly when all of
them are live. -/
def AllocRight (s : Sys) : Prop :=
  ∃ asid state, asidAlloc s.state = .ok (asid, state) ∧
    (asid ≠ 0 → asidUserBase ≤ asid ∧ asid < archAsidMax ∧ asid ∉ s.live) ∧
    (asid = 0 ↔ ∀ a : Int, asidUserBase ≤ a → a < archAsidMax → a ∈ s.live)

/-! ## The bits -/

variable {index : Nat} {s : Sys}

theorem cut_of_lt (h : index < 262144) : cut index = index := by
  unfold cut
  omega

theorem setBit_ok (s : State) (h : index < 262144) :
    setBit s index = .ok { s with asidBitmap := bitmapSetBit s.asidBitmap index } := by
  unfold setBit asidMax
  rw [cut_of_lt h, if_pos (by omega)]

theorem clearBit_ok (s : State) (h : index < 262144) :
    clearBit s index = .ok { s with asidBitmap := bitmapClearBit s.asidBitmap index } := by
  unfold clearBit asidMax
  rw [cut_of_lt h, if_pos (by omega)]

theorem setBits_ok (s : State) (index len : Nat) (h : index + len ≤ 262144) :
    setBits s index len = .ok { s with asidBitmap := bitmapSetBits s.asidBitmap index len } := by
  induction len with
  | zero => rfl
  | succ len ih =>
    rw [setBits, ih (by omega)]
    exact setBit_ok _ (by omega)

/-! ## The invariant -/

/-- The bitmap holds the fixed identifiers, the live ones and the block that `asid_init`
reserves. -/
structure Inv (s : Sys) : Prop where
  max : s.state.asidMax = 4096
  bits : ∀ p : Nat, getBit s.state.asidBitmap p = true ↔
    p < 2 ∨ (p : Int) ∈ s.live ∨ 4096 ≤ p ∧ p < 8192
  range : ∀ a ∈ s.live, 2 ≤ a ∧ a < 4096
  nodup : s.live.Nodup

theorem asidInit_eq : asidInit boot = .ok
    ⟨bitmapSetBit (bitmapSetBit (bitmapSetBits (fun _ => 0#64) 4096 4096) 0) 1, 4096⟩ := by
  have hmax : max archAsidMax asidMax = 4096 := by decide
  have hbits := setBits_ok ⟨fun _ => 0#64, 4096⟩ 4096 4096 (by decide)
  have hfixed : ∀ s : State, (do setBit (← setBit s asidFixedShared) asidFixedKernel) =
      .ok { s with asidBitmap := bitmapSetBit (bitmapSetBit s.asidBitmap 0) 1 } := fun _ => rfl
  simp only [asidInit, boot, hmax, show u64 4096 = 4096 from rfl]
  rw [if_pos (by decide), asidMax, hbits]
  generalize bitmapSetBits _ _ _ = b
  exact hfixed ⟨b, 4096⟩

theorem asidInit_inv : ∃ s, asidInit boot = .ok s ∧ Inv ⟨s, []⟩ := by
  refine ⟨_, asidInit_eq, rfl, fun p => ?_, nofun, List.nodup_nil⟩
  rw [getBit_setBit, getBit_setBit, getBit_setBits]
  simp [getBit]
  omega

/-- The search passes over the fixed and the live identifiers, and over the block behind
`ASID_MAX`, whose bits it would take for identifiers. -/
theorem findNext0_spec (h : Inv s) :
    ∃ p : Nat, findNext0 s.state 4096 2 = .ok (p : Int) ∧ 2 ≤ p ∧
      (∀ q : Nat, 2 ≤ q → q < p → q < 4096 → (q : Int) ∈ s.live) ∧
      (p < 4096 ∧ (p : Int) ∉ s.live ∨ p = 8192) := by
  have hlast : getBit s.state.asidBitmap 8192 = false := by
    rw [← Bool.not_eq_true, h.bits]
    rintro (hp | hp | hp)
    · omega
    · have := h.range _ hp
      omega
    · omega
  have hex : ∃ p, getBit s.state.asidBitmap p = false := ⟨8192, hlast⟩
  have hset : ∀ q < Nat.find hex, getBit s.state.asidBitmap q = true := fun q hq =>
    Bool.not_eq_false _ ▸ Nat.find_min hex hq
  have hclear := Nat.find_spec hex
  have hle : Nat.find hex ≤ 8192 := Nat.find_min' hex hlast
  generalize Nat.find hex = p at hset hclear hle
  have hnot : ¬ (p < 2 ∨ (p : Int) ∈ s.live ∨ 4096 ≤ p ∧ p < 8192) := by
    rw [← h.bits, hclear]
    decide
  refine ⟨p, ?_, by omega, fun q hlo hhi hlt => ?_, ?_⟩
  · unfold findNext0 asidMax
    rw [if_pos (by decide), bitmapFindNext0_eq hset hclear (by decide) (by omega) (by omega)]
  · rcases (h.bits q).1 (hset q hhi) with hq | hq | hq
    · omega
    · exact hq
    · omega
  · by_cases hp : p < 4096
    · exact .inl ⟨hp, fun hl => hnot (.inr (.inl hl))⟩
    · exact .inr (by omega)

/-- **`asid_alloc` returns the least identifier that is not live**, or 0 when all below
`ASID_MAX` are live. -/
theorem asidAlloc_spec (h : Inv s) :
    (∃ p : Nat, asidAlloc s.state =
        .ok (p, { s.state with asidBitmap := bitmapSetBit s.state.asidBitmap p }) ∧
      2 ≤ p ∧ p < 4096 ∧ (p : Int) ∉ s.live ∧
      ∀ q : Nat, 2 ≤ q → q < p → (q : Int) ∈ s.live) ∨
    asidAlloc s.state = .ok (0, s.state) ∧ ∀ q : Nat, 2 ≤ q → q < 4096 → (q : Int) ∈ s.live := by
  obtain ⟨p, hfind, hp, hlive, hstop⟩ := findNext0_spec h
  have hsize : u64 s.state.asidMax = 4096 := by
    rw [h.max]
    rfl
  have halloc : asidAlloc s.state = if (p : Int) ≥ 4096 then .ok (0, s.state)
      else do return ((p : Int), ← setBit s.state (u64 p)) := by
    unfold asidAlloc asidUserBase
    rw [hsize, hfind, h.max]
    rfl
  rcases hstop with ⟨hlt, hfree⟩ | rfl
  · refine .inl ⟨p, ?_, hp, hlt, hfree, fun q hlo hhi => hlive q hlo hhi (by omega)⟩
    rw [halloc, if_neg (by omega), u64_natCast, Nat.mod_eq_of_lt (by omega),
      setBit_ok _ (by omega)]
    rfl
  · exact .inr ⟨by rw [halloc, if_pos (by decide)], fun q hlo hhi =>
      hlive q hlo (by omega) hhi⟩

theorem asidFree_spec (h : Inv s) {asid : Int} (hlive : asid ∈ s.live) :
    asidFree s.state asid =
      .ok { s.state with asidBitmap := bitmapClearBit s.state.asidBitmap asid.toNat } := by
  obtain ⟨hlo, hhi⟩ := h.range asid hlive
  have hcut : u64 asid = asid.toNat := by
    unfold u64
    omega
  unfold asidFree asidUserBase
  rw [h.max, if_pos ⟨hhi, by omega⟩, hcut, clearBit_ok _ (by omega)]

theorem step_cases {t : Sys} {op : Op} (h : Inv s) (hok : okOp s op) (hstep : step s op = some t) :
    (∃ p : Nat, 2 ≤ p ∧ p < 4096 ∧ (p : Int) ∉ s.live ∧
      t = ⟨{ s.state with asidBitmap := bitmapSetBit s.state.asidBitmap p }, p :: s.live⟩) ∨
    (∃ p : Nat, (p : Int) ∈ s.live ∧
      t = ⟨{ s.state with asidBitmap := bitmapClearBit s.state.asidBitmap p },
        s.live.erase p⟩) ∨ t = s := by
  cases op with
  | alloc =>
    rcases asidAlloc_spec h with ⟨p, halloc, hlo, hhi, hfree, -⟩ | ⟨halloc, -⟩
    · refine .inl ⟨p, hlo, hhi, hfree, ?_⟩
      rw [step, halloc] at hstep
      have hne : p ≠ 0 := by omega
      simpa [Except.toOption, hne] using hstep.symm
    · rw [step, halloc] at hstep
      exact .inr (.inr (by simpa [Except.toOption] using hstep.symm))
  | free asid =>
    have hrange := h.range asid hok
    have hcast : ((asid.toNat : Nat) : Int) = asid := by omega
    rw [step, asidFree_spec h hok] at hstep
    refine .inr (.inl ⟨asid.toNat, by rwa [hcast], ?_⟩)
    rw [hcast]
    simpa [Except.toOption] using hstep.symm

theorem Inv.step {t : Sys} {op : Op} (h : Inv s) (hok : okOp s op) (hstep : step s op = some t) :
    Inv t := by
  rcases step_cases h hok hstep with ⟨p, hlo, hhi, hfree, rfl⟩ | ⟨p, hlive, rfl⟩ | rfl
  · refine ⟨h.max, fun q => ?_, fun a ha => ?_, List.nodup_cons.2 ⟨hfree, h.nodup⟩⟩
    · rw [getBit_setBit, Bool.or_eq_true, h.bits, decide_eq_true_eq, List.mem_cons, Int.natCast_inj]
      tauto
    · rcases List.mem_cons.1 ha with rfl | ha
      · omega
      · exact h.range a ha
  · refine ⟨h.max, fun q => ?_, fun a ha => h.range a (List.mem_of_mem_erase ha),
      h.nodup.erase _⟩
    have hrange := h.range _ hlive
    rw [getBit_clearBit, Bool.and_eq_true, h.bits, decide_eq_true_eq, h.nodup.mem_erase_iff,
      ne_eq, ne_eq, Int.natCast_inj]
    constructor
    · rintro ⟨hne, hq | hq | hq⟩
      · exact .inl hq
      · exact .inr (.inl ⟨hne, hq⟩)
      · exact .inr (.inr hq)
    · rintro (hq | hq | hq)
      · exact ⟨by omega, .inl hq⟩
      · exact ⟨hq.1, .inr (.inl hq.2)⟩
      · exact ⟨by omega, .inr (.inr hq)⟩
  · exact h

theorem steps_inv {s₀ : State} (hinit : asidInit boot = .ok s₀) (h : Steps step okOp ⟨s₀, []⟩ s) :
    Inv s := by
  obtain ⟨s₁, hs₁, hinv⟩ := asidInit_inv
  rw [hinit] at hs₁
  cases hs₁
  exact h.invariant hinv fun t a u ht ha hu => ht.step ha hu

/-! ## Which calls are right -/

theorem allocRight_iff (h : Inv s) :
    AllocRight s ↔ (∃ a : Int, asidUserBase ≤ a ∧ a < archAsidMax ∧ a ∉ s.live) ∨
      ∀ a : Int, asidUserBase ≤ a → a < asidMax → a ∈ s.live := by
  unfold AllocRight asidUserBase archAsidMax asidMax
  rcases asidAlloc_spec h with ⟨p, halloc, hlo, hhi, hfree, hleast⟩ | ⟨halloc, hall⟩
  · constructor
    · rintro ⟨asid, state, hcall, hright, -⟩
      rw [halloc] at hcall
      cases hcall
      exact .inl ⟨p, hright (by omega)⟩
    · rintro (⟨a, halo, hahi, hanot⟩ | hall)
      · have hle : (p : Int) ≤ a := by
          by_contra hlt
          refine hanot ?_
          have hmem := hleast a.toNat (by omega) (by omega)
          rwa [show ((a.toNat : Nat) : Int) = a by omega] at hmem
        refine ⟨p, _, halloc, fun _ => ⟨by omega, by omega, hfree⟩, ?_⟩
        exact ⟨fun hz => by omega, fun hlive => absurd (hlive p (by omega) (by omega)) hfree⟩
      · exact absurd (hall p (by omega) (by omega)) hfree
  · have hall' : ∀ a : Int, 2 ≤ a → a < 4096 → a ∈ s.live := by
      intro a hlo hhi
      have hmem := hall a.toNat (by omega) (by omega)
      rwa [show ((a.toNat : Nat) : Int) = a by omega] at hmem
    refine ⟨fun _ => .inr hall', fun _ => ?_⟩
    exact ⟨0, _, halloc, fun hne => absurd rfl hne, fun _ a hlo hhi =>
      hall' a hlo (by omega), fun _ => rfl⟩

theorem asidAlloc_next (h : Inv s) {n : Nat} (hn : n < 4094)
    (hlive : ∀ a : Int, a ∈ s.live ↔ 2 ≤ a ∧ a < n + 2) :
    ∃ state, asidAlloc s.state = .ok ((n : Int) + 2, state) := by
  rcases asidAlloc_spec h with ⟨p, halloc, hlo, hhi, hfree, hleast⟩ | ⟨-, hall⟩
  · have hge : ¬ p < n + 2 := fun hlt => hfree ((hlive p).2 ⟨by omega, by omega⟩)
    have hle : ¬ n + 2 < p := fun hlt => by
      have := (hlive _).1 (hleast (n + 2) (by omega) hlt)
      omega
    rw [show (n : Int) + 2 = p by omega]
    exact ⟨_, halloc⟩
  · have := (hlive _).1 (hall (n + 2) (by omega) (by omega))
    omega

theorem steps_allocs {s₀ : State} (hinit : asidInit boot = .ok s₀) (n : Nat) (hn : n ≤ 4094) :
    ∃ s, Steps step okOp ⟨s₀, []⟩ s ∧ ∀ a : Int, a ∈ s.live ↔ 2 ≤ a ∧ a < n + 2 := by
  induction n with
  | zero => exact ⟨_, .refl, fun a => ⟨nofun, fun ⟨hlo, hhi⟩ => by omega⟩⟩
  | succ n ih =>
    obtain ⟨s, hs, hlive⟩ := ih (by omega)
    obtain ⟨state, halloc⟩ := asidAlloc_next (steps_inv hinit hs) (by omega) hlive
    have hstep : step s .alloc = some ⟨state, (n + 2 : Int) :: s.live⟩ := by
      rw [step, halloc]
      exact congrArg (fun live => some (Sys.mk state live)) (if_neg (by omega))
    refine ⟨_, hs.tail .alloc trivial hstep, fun a => ?_⟩
    rw [List.mem_cons, hlive]
    omega

/-- **When `asid_alloc` is right.** After any run from `asid_init` no call leaves `asid_bitmap`
and none fails an assertion; `asid_alloc` is right exactly as long as one of the identifiers the
machine has is not live, and again when all that the bitmap has room for are live. -/
theorem asid_alloc_right_iff {s₀ : State} (hinit : asidInit boot = .ok s₀) {s : Sys}
    (h : Steps step okOp ⟨s₀, []⟩ s) :
    (AllocRight s ↔ (∃ a : Int, asidUserBase ≤ a ∧ a < archAsidMax ∧ a ∉ s.live) ∨
      ∀ a : Int, asidUserBase ≤ a → a < asidMax → a ∈ s.live) ∧
    (∃ r, asidAlloc s.state = .ok r) ∧ ∀ a ∈ s.live, ∃ r, asidFree s.state a = .ok r := by
  have hinv := steps_inv hinit h
  refine ⟨allocRight_iff hinv, ?_, fun a ha => ⟨_, asidFree_spec hinv ha⟩⟩
  rcases asidAlloc_spec hinv with ⟨p, halloc, -⟩ | ⟨halloc, -⟩
  · exact ⟨_, halloc⟩
  · exact ⟨_, halloc⟩

/-- After one call 3 is free. -/
theorem asid_alloc_right_second :
    ∃ s₀ s, asidInit boot = .ok s₀ ∧ Steps step okOp ⟨s₀, []⟩ s ∧ (2 : Int) ∈ s.live ∧
      AllocRight s := by
  obtain ⟨s₀, hinit, -⟩ := asidInit_inv
  obtain ⟨s, hrun, hlive⟩ := steps_allocs hinit 1 (by decide)
  have hfree : (3 : Int) ∉ s.live := fun h => absurd ((hlive 3).1 h) (by decide)
  exact ⟨s₀, s, hinit, hrun, (hlive 2).2 (by decide),
    (asid_alloc_right_iff hinit hrun).1.2 (.inl ⟨3, by decide, by decide, hfree⟩)⟩

/-- With all 254 identifiers of the machine live, the next call returns 256. -/
theorem asid_alloc_beyond_machine : ∃ s₀ s state, asidInit boot = .ok s₀ ∧
    Steps step okOp ⟨s₀, []⟩ s ∧ (∀ a : Int, a ∈ s.live ↔ 2 ≤ a ∧ a < archAsidMax) ∧
    asidAlloc s.state = .ok (256, state) ∧ ¬ AllocRight s := by
  obtain ⟨s₀, hinit, -⟩ := asidInit_inv
  obtain ⟨s, hs, hlive⟩ := steps_allocs hinit 254 (by decide)
  obtain ⟨state, halloc⟩ := asidAlloc_next (steps_inv hinit hs) (by decide) hlive
  refine ⟨s₀, s, state, hinit, hs, hlive, halloc, ?_⟩
  rintro ⟨asid, state', hcall, hright, -⟩
  rw [halloc] at hcall
  cases hcall
  exact absurd (hright (by decide)).2.1 (by decide)

end SpringOs.Asid
