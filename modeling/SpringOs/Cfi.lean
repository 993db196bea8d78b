import Mathlib.Algebra.Group.Nat.Defs
import SpringOs.Kernel
import SpringOs.Lib.Bytes
import SpringOs.Lib.Machine
import SpringOs.Lib.Word

/-!
`src/cfi.c`: the driver of the parallel flash, on a device that stores what is confirmed.

* **`Bus`**, **`cfiWrite`**, **`cfiRead`**: the driver, and what it sees of the device;
* **`Flash`**: what is granted of the device: well-issued commands are stored, the device is
  ready sooner or later, and the array reads as it is stored;
* `issue_eq`: one round of `cfi_write` is one command;
* `writeRounds_spec`: the rounds, one write page after the other;
* `cfiRead_array`: the bytes that `cfi_read` copies, at any alignment;
* `cfi_write_read`: the commands of a write, and what is read back;
* **`emulated`**: a device with this behaviour, as a machine on the writes of its bus.
-/

namespace SpringOs.Cfi
open Kernel Lib.Bytes Lib.Machine Lib.Word

/-! ## The driver -/

def wsize : Nat := 4

def b2w (byte : Nat) : Nat := byte >>> 2

def cfiEraseBlockNum : Nat := 256

def cfiEraseBlockSz : Nat := 512 * 256

def cfiEraseBlockSzWord : Nat := cfiEraseBlockSz / wsize

def cfiPageSz : Nat := 1 <<< 11

def cfiPageSzWord : Nat := cfiPageSz / wsize

/-- A device on the bus: its states, and what accesses do. Addresses are of words, or of bytes
for `getb`. -/
structure Bus (σ : Type) where
  putw : σ → Nat → Nat → σ
  getw : σ → Nat → Nat × σ
  getb : σ → Nat → Byte × σ

section
variable {σ : Type} (bus : Bus σ)

/-- `CFI_PUTW`, with the conversions of its arguments to `u32`. -/
def cfiPutw (d : σ) (woffset : Nat) (val : Int) : σ :=
  bus.putw d (woffset % 2 ^ 32) (val % 2 ^ 32).toNat

def cfiGetw (d : σ) (woffset : Nat) : Nat × σ :=
  let (val, d) := bus.getw d (woffset % 2 ^ 32)
  (val % 2 ^ 32, d)

def cfiGetb (d : σ) (offset : Nat) : Byte × σ := bus.getb d (offset % 2 ^ 32)

def cfiIsReady (d : σ) (offset : Nat) : Bool × σ :=
  let (val, d) := cfiGetw bus (cfiPutw bus d offset 0x70) offset
  (val &&& 0x80 != 0, d)

/-- `while (!cfi_is_ready(blkaddr)) {}` -/
def waitReady : Nat → σ → Nat → Except Fault σ
  | 0, _, _ => .error .hang
  | fuel + 1, d, blkaddr =>
    match cfiIsReady bus d blkaddr with
    | (true, d) => .ok d
    | (false, d) => waitReady fuel d blkaddr

/-- The word at `in`. -/
def wordOf (inp : Nat → Byte) (pos : Nat) : Nat := ofBytes (fun i => inp (pos + i)) 4

def putWords (inp : Nat → Byte) : σ → Nat → Nat → Nat → σ
  | d, _, _, 0 => d
  | d, offset, pos, n + 1 =>
    putWords inp (cfiPutw bus d (b2w offset) (wordOf inp pos)) (offset + wsize) (pos + wsize) n

def blkaddrOf (offset : Nat) : Nat := b2w (alignDown offset cfiEraseBlockSz)

/-- A round of `cfi_write` up to the confirmation. -/
def issue (inp : Nat → Byte) (d : σ) (offset pos wcnt : Nat) : σ :=
  let d := cfiPutw bus d (blkaddrOf offset) 0xe8
  let d := cfiPutw bus d (blkaddrOf offset) (wcnt - 1)
  let d := putWords bus inp d offset pos wcnt
  cfiPutw bus d (blkaddrOf offset) 0xd0

/-- The loop of `cfi_write`; `pos` is how far `in` has come. -/
def writeRounds (inp : Nat → Byte) : Nat → σ → Nat → Nat → Nat → Nat → Except Fault σ
  | 0, _, _, _, _, _ => .error .hang
  | fuel + 1, d, offset, pos, words, wcnt =>
    if words > 0 then do
      let d ← waitReady bus fuel (issue bus inp d offset pos wcnt) (blkaddrOf offset)
      let words := words - wcnt
      writeRounds inp fuel d (offset + wsize * wcnt) (pos + wsize * wcnt) words
        (if words > cfiPageSzWord then cfiPageSzWord else words)
    else .ok d

def cfiWrite (fuel : Nat) (d : σ) (inp : Nat → Byte) (offset size : Nat) :
    Except Fault (Nat × σ) :=
  if offset % wsize = 0 ∧ size % wsize = 0 then do
    let words := size / wsize
    let wcnt := b2w (cfiPageSz - (offset &&& (cfiPageSz - 1)))
    let wcnt := if wcnt > words then words else wcnt
    let d ← writeRounds bus inp fuel d offset 0 words wcnt
    .ok (size, cfiPutw bus d 0 0x50)
  else .error (.assertion .cfiWrite)

/-- The variables of `cfi_read`: the memory behind `out`, where `out` points, and the rest. -/
structure Reader (σ : Type) where
  flash : σ
  mem : Nat → Byte
  out : Nat
  offset : Nat
  size : Nat

def Reader.byte (r : Reader σ) : Reader σ :=
  let (b, d) := cfiGetb bus r.flash r.offset
  ⟨d, Function.update r.mem r.out b, r.out + 1, r.offset + 1, r.size - 1⟩

def Reader.word (r : Reader σ) : Reader σ :=
  let (w, d) := cfiGetw bus r.flash (r.offset / wsize)
  ⟨d, put r.mem r.out (byteOf w) wsize, r.out + wsize, r.offset + wsize, r.size - wsize⟩

/-- `cfi_read` returns what is left of `size`. -/
def cfiRead (d : σ) (mem : Nat → Byte) (out offset size : Nat) : Nat × (Nat → Byte) × σ :=
  let offsetWalign := alignUp offset wsize
  let r : Reader σ := ⟨d, mem, out, offset, size⟩
  let r := loop (fun r => r.size > 0 && r.offset < offsetWalign) (Reader.byte bus) size r
  let r := loop (fun r => r.size ≥ wsize) (Reader.word bus) size r
  let r := loop (fun r => r.size > 0) (Reader.byte bus) size r
  (r.size, r.mem, r.flash)

end

/-! ## The device -/

/-- The bytes of the flash. -/
def flashSize : Nat := cfiEraseBlockNum * cfiEraseBlockSz

/-- A buffered write: its block address, the announced count, and the address and value of each
word. -/
structure Command where
  blkaddr : Nat
  count : Nat
  words : List (Nat × Nat)
  deriving DecidableEq, Repr

/-- A command as the device wants it: the count is one less than the words, which lie in one
write page of the erase block that is addressed. -/
structure WellIssued (c : Command) : Prop where
  count : c.words.length = c.count + 1
  page : ∀ w ∈ c.words, ∀ w' ∈ c.words, w.1 / cfiPageSzWord = w'.1 / cfiPageSzWord
  block : ∀ w ∈ c.words, c.blkaddr = w.1 / cfiEraseBlockSzWord * cfiEraseBlockSzWord

/-- The accesses of a command: the two that announce it, the words, the confirmation. -/
def Bus.write {σ : Type} (bus : Bus σ) (d : σ) (c : Command) : σ :=
  let d := bus.putw (bus.putw d c.blkaddr 0xe8) c.blkaddr c.count
  bus.putw (c.words.foldl (fun d w => bus.putw d w.1 w.2) d) c.blkaddr 0xd0

/-- The status is asked for and read `n` times. -/
def Bus.polled {σ : Type} (bus : Bus σ) (woffset : Nat) : Nat → σ → σ
  | 0, d => d
  | n + 1, d => bus.polled woffset n (bus.getw (bus.putw d woffset 0x70) woffset).2

def storeWord (mem : Nat → Byte) (w : Nat × Nat) : Nat → Byte := put mem (4 * w.1) (byteOf w.2) 4

def store (mem : Nat → Byte) (words : List (Nat × Nat)) : Nat → Byte := words.foldl storeWord mem

/-- **The device**, with its contents and the commands that were confirmed. It takes commands
while it reads as its array or as its status. A well-issued command for words of the flash is
stored and leaves it reading as its status, which is ready sooner or later; clearing the status
goes back to the array. -/
structure Flash (σ : Type) extends Bus σ where
  mem : σ → Nat → Byte
  confirmed : σ → List Command
  array : σ → Prop
  status : σ → Prop
  stores : ∀ d c, array d ∨ status d → WellIssued c → (∀ w ∈ c.words, 4 * w.1 < flashSize) →
    status (toBus.write d c) ∧ mem (toBus.write d c) = store (mem d) c.words ∧
      confirmed (toBus.write d c) = confirmed d ++ [c]
  polls : ∀ d a, status d → status (toBus.polled a 1 d) ∧ mem (toBus.polled a 1 d) = mem d ∧
    confirmed (toBus.polled a 1 d) = confirmed d
  ready : ∀ d a, status d →
    ∃ n, (getw (putw (toBus.polled a n d) a 0x70) a).1 % 2 ^ 32 &&& 0x80 ≠ 0
  clears : ∀ d a, array d ∨ status d → array (putw d a 0x50) ∧ mem (putw d a 0x50) = mem d ∧
    confirmed (putw d a 0x50) = confirmed d
  word : ∀ d a, array d → 4 * a < flashSize →
    getw d a = (ofBytes (fun i => mem d (4 * a + i)) 4, d)
  byte : ∀ d a, array d → a < flashSize → getb d a = (mem d a, d)

/-! ## The words of a round -/

/-- `n` words of `in`, with their addresses. -/
def wordsAt (inp : Nat → Byte) : Nat → Nat → Nat → List (Nat × Nat)
  | _, _, 0 => []
  | addr, pos, n + 1 => (addr, wordOf inp pos) :: wordsAt inp (addr + 1) (pos + 4) n

theorem length_wordsAt (inp : Nat → Byte) (addr pos n : Nat) :
    (wordsAt inp addr pos n).length = n := by
  induction n generalizing addr pos with
  | zero => rfl
  | succ n ih => rw [wordsAt, List.length_cons, ih]

theorem map_fst_wordsAt (inp : Nat → Byte) (addr pos n : Nat) :
    (wordsAt inp addr pos n).map Prod.fst = List.range' addr n := by
  induction n generalizing addr pos with
  | zero => rfl
  | succ n ih => rw [wordsAt, List.map_cons, ih, List.range'_succ]

theorem mem_wordsAt {inp : Nat → Byte} {addr pos n : Nat} {w : Nat × Nat}
    (h : w ∈ wordsAt inp addr pos n) : addr ≤ w.1 ∧ w.1 < addr + n := by
  have hfst : w.1 ∈ (wordsAt inp addr pos n).map Prod.fst := List.mem_map_of_mem h
  rw [map_fst_wordsAt] at hfst
  exact List.mem_range'_1.1 hfst

theorem store_wordsAt (inp : Nat → Byte) (mem : Nat → Byte) (addr pos n : Nat) :
    store mem (wordsAt inp addr pos n) = put mem (4 * addr) (fun i => inp (pos + i)) (4 * n) := by
  induction n generalizing mem addr pos with
  | zero => exact (put_zero ..).symm
  | succ n ih =>
    have hword : storeWord mem (addr, wordOf inp pos) =
        put mem (4 * addr) (fun i => inp (pos + i)) 4 :=
      put_congr _ _ fun i hi => byteOf_ofBytes (fun i => inp (pos + i)) hi
    have hsrc : (fun i => inp (pos + 4 + i)) = fun i => inp (pos + (4 + i)) := by
      simp only [Nat.add_assoc]
    rw [wordsAt, store, List.foldl_cons, hword]
    change store _ _ = _
    rw [ih, hsrc, Nat.mul_succ, put_append mem (4 * addr) (fun i => inp (pos + i)) 4 (4 * n),
      Nat.mul_succ, Nat.add_comm]

/-! ## One round -/

section
variable {σ : Type}

theorem cfiPutw_of_lt (bus : Bus σ) (d : σ) {woffset val : Nat} (hw : woffset < 2 ^ 32)
    (hv : val < 2 ^ 32) : cfiPutw bus d woffset val = bus.putw d woffset val := by
  have hval : ((val : Int) % 2 ^ 32).toNat = val := by omega
  rw [cfiPutw, Nat.mod_eq_of_lt hw, hval]

theorem b2w_eq (n : Nat) : b2w n = n / 4 := Nat.shiftRight_eq_div_pow n 2

theorem wordOf_lt (inp : Nat → Byte) (pos : Nat) : wordOf inp pos < 2 ^ 32 :=
  ofBytes_lt (fun i => inp (pos + i)) 4

variable {offset pos wcnt : Nat}

theorem blkaddrOf_eq (h : offset < 2 ^ 32) : blkaddrOf offset = offset / 4 / 32768 * 32768 := by
  have hdown : alignDown offset (2 ^ 17) = offset / 2 ^ 17 * 2 ^ 17 := alignDown_pow (by omega)
  have hsize : cfiEraseBlockSz = 2 ^ 17 := by decide
  rw [blkaddrOf, b2w_eq, hsize, hdown]
  omega

theorem putWords_eq (bus : Bus σ) (inp : Nat → Byte) (d : σ) {n : Nat} (halign : offset % 4 = 0)
    (hoff : offset + 4 * n ≤ 2 ^ 32) :
    putWords bus inp d offset pos n =
      (wordsAt inp (offset / 4) pos n).foldl (fun d w => bus.putw d w.1 w.2) d := by
  induction n generalizing d offset pos with
  | zero => rfl
  | succ n ih =>
    have hnext : (offset + 4) / 4 = offset / 4 + 1 := by omega
    rw [putWords, b2w_eq, cfiPutw_of_lt bus d (by omega) (wordOf_lt inp pos), wsize,
      ih _ (by omega) (by omega), hnext, wordsAt, List.foldl_cons]

def command (inp : Nat → Byte) (offset pos wcnt : Nat) : Command :=
  ⟨offset / 4 / 32768 * 32768, wcnt - 1, wordsAt inp (offset / 4) pos wcnt⟩

theorem issue_eq (bus : Bus σ) (inp : Nat → Byte) (d : σ) (halign : offset % 4 = 0)
    (hpos : 0 < wcnt) (hoff : offset + 4 * wcnt ≤ 2 ^ 32) :
    issue bus inp d offset pos wcnt = bus.write d (command inp offset pos wcnt) := by
  have hblk : blkaddrOf offset = offset / 4 / 32768 * 32768 := blkaddrOf_eq (by omega)
  have hcount : ((wcnt : Int) - 1) = ((wcnt - 1 : Nat) : Int) := by omega
  have hput : ∀ (d : σ) (val : Nat), val < 2 ^ 32 → cfiPutw bus d (blkaddrOf offset) val =
      bus.putw d (offset / 4 / 32768 * 32768) val := by
    intro d val hval
    rw [hblk, cfiPutw_of_lt bus d (by omega) hval]
  have hwrite : cfiPutw bus d (blkaddrOf offset) 0xe8 = _ := hput d 0xe8 (by decide)
  rw [issue, hwrite, hcount, hput _ _ (by omega), putWords_eq bus inp _ halign hoff]
  exact hput _ 0xd0 (by decide)

theorem command_wellIssued (inp : Nat → Byte) (hpos : 0 < wcnt)
    (hpage : offset / 4 % 512 + wcnt ≤ 512) : WellIssued (command inp offset pos wcnt) := by
  refine ⟨?_, fun w hw w' hw' => ?_, fun w hw => ?_⟩
  · change (wordsAt inp (offset / 4) pos wcnt).length = wcnt - 1 + 1
    rw [length_wordsAt]
    omega
  · obtain ⟨hlo, hhi⟩ := mem_wordsAt hw
    obtain ⟨hlo', hhi'⟩ := mem_wordsAt hw'
    change w.1 / 512 = w'.1 / 512
    omega
  · obtain ⟨hlo, hhi⟩ := mem_wordsAt hw
    change offset / 4 / 32768 * 32768 = w.1 / 32768 * 32768
    omega

variable (f : Flash σ)

def Flash.Idle (d : σ) : Prop := f.array d ∨ f.status d

theorem issue_stores (inp : Nat → Byte) {d : σ} (hidle : f.Idle d) (pos : Nat) {offset wcnt : Nat}
    (halign : offset % 4 = 0) (hpos : 0 < wcnt) (hpage : offset / 4 % 512 + wcnt ≤ 512)
    (hin : offset + 4 * wcnt ≤ flashSize) :
    f.status (issue f.toBus inp d offset pos wcnt) ∧
      f.mem (issue f.toBus inp d offset pos wcnt) =
        put (f.mem d) offset (fun i => inp (pos + i)) (4 * wcnt) ∧
      f.confirmed (issue f.toBus inp d offset pos wcnt) =
        f.confirmed d ++ [command inp offset pos wcnt] := by
  have hflash : flashSize = 0x2000000 := by decide
  have hinside : ∀ w ∈ (command inp offset pos wcnt).words, 4 * w.1 < flashSize := by
    intro w hw
    obtain ⟨hlo, hhi⟩ := mem_wordsAt hw
    omega
  have hfour : 4 * (offset / 4) = offset := by omega
  obtain ⟨hstatus, hmem, hconfirmed⟩ := f.stores d _ hidle
    (command_wellIssued inp hpos hpage) hinside
  have hstored := store_wordsAt inp (f.mem d) (offset / 4) pos wcnt
  rw [hfour] at hstored
  rw [issue_eq f.toBus inp d halign hpos (by omega)]
  exact ⟨hstatus, hmem.trans hstored, hconfirmed⟩

/-! ## Waiting -/

/-- With enough rounds the device is found ready; its contents stay. -/
theorem waitReady_spec {d : σ} (hstatus : f.status d) {blkaddr : Nat} (hblk : blkaddr < 2 ^ 32) :
    ∃ enough d', f.status d' ∧ f.mem d' = f.mem d ∧ f.confirmed d' = f.confirmed d ∧
      ∀ fuel ≥ enough, waitReady f.toBus fuel d blkaddr = .ok d' := by
  have hpoll : ∀ d, cfiIsReady f.toBus d blkaddr =
      ((f.getw (f.putw d blkaddr 0x70) blkaddr).1 % 2 ^ 32 &&& 0x80 != 0,
        f.polled blkaddr 1 d) := by
    intro d
    have hput : cfiPutw f.toBus d blkaddr 0x70 = f.putw d blkaddr 0x70 :=
      cfiPutw_of_lt f.toBus d hblk (by decide : 0x70 < 2 ^ 32)
    rw [cfiIsReady, hput, cfiGetw, Nat.mod_eq_of_lt hblk]
    rfl
  obtain ⟨n, hn⟩ := f.ready d blkaddr hstatus
  -- The number of reads until the one that is known to find the device ready.
  induction n generalizing d with
  | zero =>
    obtain ⟨hstatus', hmem, hconfirmed⟩ := f.polls d blkaddr hstatus
    refine ⟨1, _, hstatus', hmem, hconfirmed, fun fuel hfuel => ?_⟩
    obtain ⟨fuel, rfl⟩ := Nat.exists_eq_add_of_le' hfuel
    have hnow : ((f.getw (f.putw d blkaddr 0x70) blkaddr).1 % 2 ^ 32 &&& 0x80 != 0) = true :=
      (bne_iff_ne ..).2 hn
    rw [waitReady, hpoll, hnow]
  | succ n ih =>
    obtain ⟨hstatus', hmem, hconfirmed⟩ := f.polls d blkaddr hstatus
    cases hnow : (f.getw (f.putw d blkaddr 0x70) blkaddr).1 % 2 ^ 32 &&& 0x80 != 0 with
    | true =>
      refine ⟨1, _, hstatus', hmem, hconfirmed, fun fuel hfuel => ?_⟩
      obtain ⟨fuel, rfl⟩ := Nat.exists_eq_add_of_le' hfuel
      rw [waitReady, hpoll, hnow]
    | false =>
      obtain ⟨enough, d', hs, hm, hc, hwait⟩ := ih hstatus' hn
      refine ⟨enough + 1, d', hs, hm.trans hmem, hc.trans hconfirmed, fun fuel hfuel => ?_⟩
      obtain ⟨fuel, rfl⟩ := Nat.exists_eq_add_of_le' (Nat.le_trans (Nat.le_add_left 1 enough) hfuel)
      rw [waitReady, hpoll, hnow]
      exact hwait fuel (by omega)

/-! ## The rounds -/

/-- What a loop over `words` words from `offset` does: `cmds` is what the device was told. -/
structure Wrote (inp : Nat → Byte) (d : σ) (offset pos words : Nat) (d' : σ)
    (cmds : List Command) : Prop where
  idle : f.Idle d'
  mem : f.mem d' = put (f.mem d) offset (fun i => inp (pos + i)) (4 * words)
  confirmed : f.confirmed d' = f.confirmed d ++ cmds
  partitioned : (cmds.flatMap Command.words).map Prod.fst = List.range' (offset / 4) words
  issued : ∀ c ∈ cmds, WellIssued c

variable {f}

theorem Wrote.none (inp : Nat → Byte) {d : σ} (h : f.Idle d) (offset pos : Nat) :
    Wrote f inp d offset pos 0 d [] where
  idle := h
  mem := (put_zero ..).symm
  confirmed := (List.append_nil _).symm
  partitioned := rfl
  issued := nofun

theorem Wrote.cons {inp : Nat → Byte} {d d₁ d' : σ} {offset pos wcnt rest : Nat}
    {cmds : List Command} (halign : offset % 4 = 0)
    (hmem : f.mem d₁ = put (f.mem d) offset (fun i => inp (pos + i)) (4 * wcnt))
    (hconfirmed : f.confirmed d₁ = f.confirmed d ++ [command inp offset pos wcnt])
    (hcmd : WellIssued (command inp offset pos wcnt))
    (h : Wrote f inp d₁ (offset + 4 * wcnt) (pos + 4 * wcnt) rest d' cmds) :
    Wrote f inp d offset pos (wcnt + rest) d' (command inp offset pos wcnt :: cmds) where
  idle := h.idle
  mem := by
    have hsrc : (fun i => inp (pos + 4 * wcnt + i)) = fun i => inp (pos + (4 * wcnt + i)) := by
      simp only [Nat.add_assoc]
    rw [h.mem, hmem, hsrc, Nat.mul_add]
    exact put_append (f.mem d) offset (fun i => inp (pos + i)) (4 * wcnt) (4 * rest)
  confirmed := by
    rw [h.confirmed, hconfirmed, List.append_assoc, List.singleton_append]
  partitioned := by
    have hnext : (offset + 4 * wcnt) / 4 = offset / 4 + wcnt := by omega
    rw [List.flatMap_cons, List.map_append, h.partitioned, hnext, command, map_fst_wordsAt,
      List.range'_append_1]
  issued := List.forall_mem_cons.2 ⟨hcmd, h.issued⟩

def roundWords (offset words : Nat) : Nat := min words (512 - offset / 4 % 512)

theorem writeRounds_spec (inp : Nat → Byte) {d : σ} (hidle : f.Idle d) (offset pos words : Nat)
    (halign : offset % 4 = 0) (hin : offset + 4 * words ≤ flashSize) :
    ∃ enough d' cmds, Wrote f inp d offset pos words d' cmds ∧ ∀ fuel ≥ enough,
      writeRounds f.toBus inp fuel d offset pos words (roundWords offset words) = .ok d' := by
  have hflash : flashSize = 0x2000000 := by decide
  -- Every round takes at least one word.
  induction words using Nat.strongRecOn generalizing d offset pos with
  | ind words ih =>
    rcases Nat.eq_zero_or_pos words with rfl | hpos
    · refine ⟨1, d, [], .none inp hidle offset pos, fun fuel hfuel => ?_⟩
      obtain ⟨fuel, rfl⟩ := Nat.exists_eq_add_of_le' hfuel
      exact if_neg (Nat.lt_irrefl 0)
    · generalize hw : roundWords offset words = wcnt
      have hcnt : 0 < wcnt ∧ wcnt ≤ words ∧ offset / 4 % 512 + wcnt ≤ 512 := by
        rw [roundWords] at hw
        omega
      obtain ⟨hwpos, hwle, hpage⟩ := hcnt
      have hblk : blkaddrOf offset < 2 ^ 32 := by
        rw [blkaddrOf_eq (by omega)]
        omega
      obtain ⟨hstatus, hmem, hconfirmed⟩ :=
        issue_stores f inp hidle pos halign hwpos hpage (by omega)
      obtain ⟨polling, d₁, hstatus₁, hmem₁, hconfirmed₁, hwait⟩ := waitReady_spec f hstatus hblk
      -- The next round starts a write page, unless this one was the last.
      have hnext : (if words - wcnt > cfiPageSzWord then cfiPageSzWord else words - wcnt) =
          roundWords (offset + 4 * wcnt) (words - wcnt) := by
        change (if words - wcnt > 512 then 512 else words - wcnt) = _
        rw [roundWords] at hw ⊢
        split <;> omega
      obtain ⟨enough, d', cmds, hwrote, hrest⟩ := ih (words - wcnt) (by omega) (d := d₁)
        (.inr hstatus₁) (offset + 4 * wcnt) (pos + 4 * wcnt) (by omega) (by omega)
      have hall := hwrote.cons halign (hmem₁.trans hmem) (hconfirmed₁.trans hconfirmed)
        (command_wellIssued inp hwpos hpage)
      rw [Nat.add_sub_cancel' hwle] at hall
      refine ⟨max enough polling + 1, d', _, hall, fun fuel hfuel => ?_⟩
      obtain ⟨fuel, rfl⟩ := Nat.exists_eq_add_of_le' (Nat.le_trans (Nat.le_add_left 1 _) hfuel)
      rw [writeRounds, if_pos hpos, hwait fuel (by omega)]
      change writeRounds f.toBus inp fuel _ (offset + 4 * wcnt) (pos + 4 * wcnt)
        (words - wcnt) _ = _
      rw [hnext]
      exact hrest fuel (by omega)

theorem firstCount_eq {offset : Nat} (halign : offset % 4 = 0) (words : Nat) :
    (if b2w (cfiPageSz - (offset &&& (cfiPageSz - 1))) > words then words
      else b2w (cfiPageSz - (offset &&& (cfiPageSz - 1)))) = roundWords offset words := by
  have hsize : cfiPageSz = 2 ^ 11 := by decide
  rw [hsize, Nat.and_two_pow_sub_one_eq_mod, b2w_eq, roundWords]
  split <;> omega

/-! ## Reading -/

/-- `cfi_read` has copied `k` of `n` bytes. -/
def Copied (f : Flash σ) (d : σ) (mem : Nat → Byte) (out offset n : Nat) (r : Reader σ) : Prop :=
  ∃ k ≤ n, r = ⟨d, put mem out (fun i => f.mem d (offset + i)) k, out + k, offset + k, n - k⟩

variable {d : σ} {mem : Nat → Byte} {out offset n : Nat} {r : Reader σ}

section

variable (h : Copied f d mem out offset n r) (harray : f.array d) (hin : offset + n ≤ flashSize)
include h harray hin

theorem Copied.byte (hsize : 0 < r.size) :
    Copied f d mem out offset n (r.byte f.toBus) ∧ (r.byte f.toBus).offset = r.offset + 1 ∧
      (r.byte f.toBus).size < r.size := by
  obtain ⟨k, hk, rfl⟩ := h
  dsimp only at hsize
  have hflash : flashSize = 0x2000000 := by decide
  have hget : cfiGetb f.toBus d (offset + k) = (f.mem d (offset + k), d) := by
    rw [cfiGetb, Nat.mod_eq_of_lt (by omega)]
    exact f.byte d _ harray (by omega)
  have hmem : Function.update (put mem out (fun i => f.mem d (offset + i)) k) (out + k)
      (f.mem d (offset + k)) = put mem out (fun i => f.mem d (offset + i)) (k + 1) := by
    rw [← put_append, put_one]
    rfl
  simp only [Reader.byte, hget, hmem]
  refine ⟨⟨k + 1, by omega, ?_⟩, trivial, by omega⟩
  rw [Nat.sub_sub, Nat.add_assoc, Nat.add_assoc]

theorem Copied.word (hsize : 4 ≤ r.size) (halign : r.offset % 4 = 0) :
    Copied f d mem out offset n (r.word f.toBus) ∧ (r.word f.toBus).offset = r.offset + 4 ∧
      (r.word f.toBus).size < r.size := by
  obtain ⟨k, hk, rfl⟩ := h
  dsimp only at hsize halign
  have hflash : flashSize = 0x2000000 := by decide
  have hget : cfiGetw f.toBus d ((offset + k) / wsize) =
      (ofBytes (fun i => f.mem d (offset + k + i)) 4, d) := by
    have hword : (offset + k) / wsize % 2 ^ 32 = (offset + k) / 4 := Nat.mod_eq_of_lt (by
      rw [wsize]
      omega)
    have hfour : 4 * ((offset + k) / 4) = offset + k := by omega
    rw [cfiGetw, hword, f.word d _ harray (by omega), hfour]
    exact congrArg (·, d) (Nat.mod_eq_of_lt (ofBytes_lt (fun i => f.mem d (offset + k + i)) 4))
  have hmem : put (put mem out (fun i => f.mem d (offset + i)) k) (out + k)
      (byteOf (ofBytes (fun i => f.mem d (offset + k + i)) 4)) 4 =
        put mem out (fun i => f.mem d (offset + i)) (k + 4) := by
    rw [← put_append]
    refine put_congr _ _ fun i hi => ?_
    rw [byteOf_ofBytes _ hi, Nat.add_assoc]
  simp only [Reader.word, hget]
  rw [wsize, hmem]
  refine ⟨⟨k + 4, by omega, ?_⟩, rfl, by omega⟩
  rw [Nat.sub_sub, Nat.add_assoc, Nat.add_assoc]

theorem Copied.head {bound fuel : Nat} (hle : r.offset ≤ bound) (hfuel : r.size ≤ fuel) :
    ∃ r', loop (fun r => r.size > 0 && r.offset < bound) (Reader.byte f.toBus) fuel r = r' ∧
      Copied f d mem out offset n r' ∧ (r'.size = 0 ∨ r'.offset = bound) := by
  have hbody : ∀ r : Reader σ, Copied f d mem out offset n r ∧ r.offset ≤ bound →
      (decide (r.size > 0) && decide (r.offset < bound)) = true →
      (Copied f d mem out offset n (r.byte f.toBus) ∧ (r.byte f.toBus).offset ≤ bound) ∧
        (r.byte f.toBus).size < r.size := by
    intro r hr hc
    simp only [gt_iff_lt, Bool.and_eq_true, decide_eq_true_eq] at hc
    obtain ⟨hnew, hnext, hless⟩ := hr.1.byte harray hin hc.1
    exact ⟨⟨hnew, by omega⟩, hless⟩
  have hend := loop_rule Reader.size hbody ⟨h, hle⟩ hfuel
  generalize loop _ _ fuel r = r' at hend ⊢
  obtain ⟨⟨hcopied, hle'⟩, hstop⟩ := hend
  simp only [gt_iff_lt, Bool.and_eq_false_iff, decide_eq_false_iff_not] at hstop
  exact ⟨r', rfl, hcopied, by omega⟩

theorem Copied.words {fuel : Nat} (halign : r.size = 0 ∨ r.offset % 4 = 0) (hfuel : r.size ≤ fuel) :
    Copied f d mem out offset n (loop (fun r => r.size ≥ wsize) (Reader.word f.toBus) fuel r) := by
  refine (loop_rule (P := fun r => Copied f d mem out offset n r ∧ (r.size = 0 ∨ r.offset % 4 = 0))
    Reader.size ?_ ⟨h, halign⟩ hfuel).1.1
  intro r hr hc
  have hfour : 4 ≤ r.size := of_decide_eq_true hc
  have hword : r.offset % 4 = 0 := hr.2.resolve_left (by omega)
  obtain ⟨hnew, hnext, hless⟩ := hr.1.word harray hin hfour hword
  exact ⟨⟨hnew, .inr (by omega)⟩, hless⟩

theorem Copied.tail {fuel : Nat} (hfuel : r.size ≤ fuel) :
    loop (fun r => r.size > 0) (Reader.byte f.toBus) fuel r =
      ⟨d, put mem out (fun i => f.mem d (offset + i)) n, out + n, offset + n, 0⟩ := by
  have hbody : ∀ r : Reader σ, Copied f d mem out offset n r → decide (r.size > 0) = true →
      Copied f d mem out offset n (r.byte f.toBus) ∧ (r.byte f.toBus).size < r.size := by
    intro r hr hc
    obtain ⟨hnew, -, hless⟩ := hr.byte harray hin (of_decide_eq_true hc)
    exact ⟨hnew, hless⟩
  obtain ⟨⟨k, hk, heq⟩, hstop⟩ := loop_rule Reader.size hbody h hfuel
  have hzero : ¬ n - k > 0 := by
    rw [heq] at hstop
    exact of_decide_eq_false hstop
  have hall : k = n := by omega
  rw [heq, hall, Nat.sub_self]

end

theorem Copied.size_le (h : Copied f d mem out offset n r) : r.size ≤ n := by
  obtain ⟨k, hk, rfl⟩ := h
  exact Nat.sub_le n k

/-- **`cfi_read` of an array.** Whatever the alignment, exactly the bytes asked for arrive. -/
theorem cfiRead_array (harray : f.array d) (mem : Nat → Byte) (out : Nat)
    (hin : offset + n ≤ flashSize) :
    cfiRead f.toBus d mem out offset n =
      (0, put mem out (fun i => f.mem d (offset + i)) n, d) := by
  have hflash : flashSize = 0x2000000 := by decide
  have hbound : alignUp offset wsize = (offset + 3) / 4 * 4 := alignUp_pow (k := 2) (by omega)
  have hle : offset ≤ alignUp offset wsize := by
    rw [hbound]
    omega
  have hstart : Copied f d mem out offset n ⟨d, mem, out, offset, n⟩ :=
    ⟨0, Nat.zero_le n, by rw [put_zero]; rfl⟩
  obtain ⟨r, hloop, hhead, hend⟩ := hstart.head harray hin hle (Nat.le_refl n)
  have hwords := hhead.words harray hin (by omega) hhead.size_le
  have htail := hwords.tail harray hin hwords.size_le
  rw [cfiRead, hloop, htail]

end

/-! ## A device -/

/-- What the next write means: a command, the count of a buffered write, or a word of it. -/
inductive Mode
  | array
  | status
  | count (blkaddr : Nat)
  | data (blkaddr count : Nat) (buf : List (Nat × Nat))
  deriving DecidableEq, Repr

/-- The contents by the byte, the number of status reads so far and the commands confirmed. -/
structure Pflash where
  mem : Nat → Byte
  mode : Mode
  polls : Nat
  confirmed : List Command

/-- The values of the status register, read after read: the device is ready again and again. -/
structure StatusReg where
  value : Nat → Nat
  ready : ∀ k, ∃ j, value (k + j) % 2 ^ 32 &&& 0x80 ≠ 0

/-- A write on the bus. Clearing the status goes back to reading the array, as the emulated
device does. -/
def Pflash.putw (d : Pflash) (woffset val : Nat) : Pflash :=
  match d.mode with
  | .count blkaddr => { d with mode := .data blkaddr val [] }
  | .data blkaddr count buf =>
    if buf.length ≤ count then { d with mode := .data blkaddr count (buf ++ [(woffset, val)]) }
    else if val = 0xd0 then
      { d with
        mem := store d.mem buf
        mode := .status
        confirmed := d.confirmed ++ [⟨blkaddr, count, buf⟩] }
    else { d with mode := .array }
  | .array | .status =>
    if val = 0xe8 then { d with mode := .count woffset }
    else if val = 0x70 then { d with mode := .status }
    else if val = 0x50 then { d with mode := .array }
    else d

/-- The bus of the device, whose status register has the values of `st`. -/
def pflashBus (st : StatusReg) : Bus Pflash where
  putw := Pflash.putw
  getw d woffset :=
    match d.mode with
    | .array => (ofBytes (fun i => d.mem (4 * woffset + i)) 4, d)
    | _ => (st.value d.polls, { d with polls := d.polls + 1 })
  getb d offset :=
    match d.mode with
    | .array => (d.mem offset, d)
    | _ => (byteOf (st.value d.polls) 0, { d with polls := d.polls + 1 })

variable {d : Pflash}

theorem Pflash.putw_write (h : d.mode = .array ∨ d.mode = .status) (woffset : Nat) :
    d.putw woffset 0xe8 = { d with mode := .count woffset } := by
  rcases h with h | h <;> simp [Pflash.putw, h]

theorem Pflash.putw_status (h : d.mode = .status) (woffset : Nat) : d.putw woffset 0x70 = d := by
  have hput : d.putw woffset 0x70 = { d with mode := .status } := by simp [Pflash.putw, h]
  rw [hput, ← h]

theorem Pflash.putw_clear (h : d.mode = .array ∨ d.mode = .status) (woffset : Nat) :
    d.putw woffset 0x50 = { d with mode := .array } := by
  rcases h with h | h <;> simp [Pflash.putw, h]

theorem Pflash.putw_words {blkaddr count : Nat} (buf : List (Nat × Nat)) {words : List (Nat × Nat)}
    (hmode : d.mode = .data blkaddr count buf) (hroom : buf.length + words.length ≤ count + 1) :
    words.foldl (fun d w => d.putw w.1 w.2) d =
      { d with mode := .data blkaddr count (buf ++ words) } := by
  induction words generalizing d buf with
  | nil => rw [List.append_nil, ← hmode]; rfl
  | cons w words ih =>
    rw [List.length_cons] at hroom
    have hput : d.putw w.1 w.2 = { d with mode := .data blkaddr count (buf ++ [w]) } := by
      rw [Pflash.putw, hmode]
      exact if_pos (by omega)
    rw [List.foldl_cons, hput, ih _ rfl (by rw [List.length_append, List.length_singleton]; omega),
      List.append_assoc, List.singleton_append]

theorem pflashBus_write (st : StatusReg) (h : d.mode = .array ∨ d.mode = .status) {c : Command}
    (hcount : c.words.length = c.count + 1) :
    (pflashBus st).write d c =
      ⟨store d.mem c.words, .status, d.polls, d.confirmed ++ [c]⟩ := by
  have hwords : c.words.foldl (fun d w => Pflash.putw d w.1 w.2)
      { d with mode := .data c.blkaddr c.count [] } =
        { d with mode := .data c.blkaddr c.count c.words } :=
    Pflash.putw_words [] rfl (by rw [List.length_nil]; omega)
  change Pflash.putw (c.words.foldl (fun d w => Pflash.putw d w.1 w.2)
    ((d.putw c.blkaddr 0xe8).putw c.blkaddr c.count)) c.blkaddr 0xd0 = _
  rw [Pflash.putw_write h]
  change Pflash.putw (c.words.foldl _ { d with mode := .data c.blkaddr c.count [] }) _ _ = _
  rw [hwords]
  dsimp only [Pflash.putw]
  rw [if_neg (by omega), if_pos rfl]

theorem pflashBus_polled (st : StatusReg) (h : d.mode = .status) (woffset n : Nat) :
    (pflashBus st).polled woffset n d = { d with polls := d.polls + n } := by
  induction n generalizing d with
  | zero => rfl
  | succ n ih =>
    have hget : ((pflashBus st).getw (d.putw woffset 0x70) woffset).2 =
        { d with polls := d.polls + 1 } := by
      rw [Pflash.putw_status h]
      simp only [pflashBus, h]
    change (pflashBus st).polled woffset n
      ((pflashBus st).getw (d.putw woffset 0x70) woffset).2 = _
    have hrest := ih (d := { d with polls := d.polls + 1 }) h
    rw [hget, hrest, Nat.add_assoc, Nat.add_comm 1]

/-- The device behaves as granted. -/
def emulated (st : StatusReg) : Flash Pflash where
  toBus := pflashBus st
  mem := Pflash.mem
  confirmed := Pflash.confirmed
  array d := d.mode = .array
  status d := d.mode = .status
  stores d c hidle hc _ := by
    rw [pflashBus_write st hidle hc.count]
    exact ⟨rfl, rfl, rfl⟩
  polls d a h := by
    rw [pflashBus_polled st h]
    exact ⟨h, rfl, rfl⟩
  ready d a h := by
    obtain ⟨j, hj⟩ := st.ready d.polls
    refine ⟨j, ?_⟩
    rw [pflashBus_polled st h]
    change ((pflashBus st).getw (Pflash.putw { d with polls := d.polls + j } a 0x70) a).1 % 2 ^ 32
      &&& 0x80 ≠ 0
    have hstatus : ({ d with polls := d.polls + j } : Pflash).mode = .status := h
    rw [Pflash.putw_status hstatus]
    simpa only [pflashBus, h] using hj
  clears d a hidle := by
    change (d.putw a 0x50).mode = .array ∧ (d.putw a 0x50).mem = d.mem ∧
      (d.putw a 0x50).confirmed = d.confirmed
    rw [Pflash.putw_clear hidle]
    exact ⟨rfl, rfl, rfl⟩
  word d a h _ := by simp only [pflashBus, h]
  byte d a h _ := by simp only [pflashBus, h]

/-- A device that is ready at every other read. -/
def everyOther : StatusReg where
  value k := if k % 2 = 1 then 0x80 else 0
  ready k := by
    refine ⟨k + 1, ?_⟩
    rw [if_pos (by omega)]
    decide

/-! ## Writing and reading back -/

/-- **A write and the reads after it**, on every device with the behaviour of `Flash`. For every
aligned range of the flash, `cfi_write` returns once the device has been ready often enough. Its
commands take the words of the range one after the other, each within a write page, with its
count and its erase block; then every byte range of it reads back as written, at any alignment,
and nothing around the buffer changes. -/
theorem cfi_write_read {σ : Type} (f : Flash σ) {d : σ} (hidle : f.Idle d) (inp : Nat → Byte)
    {offset size : Nat} (halign : offset % wsize = 0) (hwords : size % wsize = 0)
    (hin : offset + size ≤ flashSize) :
    ∃ enough d' cmds,
      (∀ fuel ≥ enough, cfiWrite f.toBus fuel d inp offset size = .ok (size, d')) ∧
      f.confirmed d' = f.confirmed d ++ cmds ∧
      (cmds.flatMap Command.words).map Prod.fst = List.range' (offset / wsize) (size / wsize) ∧
      (∀ c ∈ cmds, WellIssued c) ∧
      ∀ mem out o n, offset ≤ o → o + n ≤ offset + size →
        cfiRead f.toBus d' mem out o n =
          (0, put mem out (fun i => inp (o - offset + i)) n, d') := by
  change offset % 4 = 0 at halign
  change size % 4 = 0 at hwords
  obtain ⟨enough, d', cmds, hwrote, hrun⟩ :=
    writeRounds_spec inp hidle offset 0 (size / 4) halign (by omega)
  obtain ⟨harray, hmem, hconfirmed⟩ := f.clears d' 0 hwrote.idle
  refine ⟨enough, f.putw d' 0 0x50, cmds, fun fuel hfuel => ?_,
    hconfirmed.trans hwrote.confirmed, hwrote.partitioned, hwrote.issued,
    fun mem out o n hlo hhi => ?_⟩
  · rw [cfiWrite, if_pos ⟨halign, hwords⟩]
    dsimp only
    rw [firstCount_eq halign]
    change (writeRounds f.toBus inp fuel d offset 0 (size / 4)
      (roundWords offset (size / 4)) >>= _) = _
    rw [hrun fuel hfuel]
    rfl
  · rw [cfiRead_array harray mem out (by omega), hmem, hwrote.mem]
    have hread : put mem out (fun i => put (f.mem d) offset (fun i => inp (0 + i))
        (4 * (size / 4)) (o + i)) n = put mem out (fun i => inp (o - offset + i)) n := by
      refine put_congr _ _ fun i hi => ?_
      have haddr : o + i = offset + (o - offset + i) := by omega
      rw [haddr, put_inside _ _ _ (by omega), Nat.zero_add]
    rw [hread]

/-- A write over the end of a write page: eight words from 16 bytes before it. -/
theorem cfi_write_read_page_end : ∃ enough d' cmds,
    (∀ fuel ≥ enough, cfiWrite (pflashBus everyOther) fuel ⟨fun _ => 0xff, .array, 0, []⟩
      (byteOf 0x1234567) 2032 32 = .ok (32, d')) ∧
      d'.confirmed = [] ++ cmds ∧
      (cmds.flatMap Command.words).map Prod.fst = List.range' 508 8 ∧
      (∀ c ∈ cmds, WellIssued c) ∧
      ∀ mem out o n, 2032 ≤ o → o + n ≤ 2032 + 32 → cfiRead (pflashBus everyOther) d' mem out o n =
        (0, put mem out (fun i => byteOf 0x1234567 (o - 2032 + i)) n, d') := by
  have hidle : (emulated everyOther).Idle ⟨fun _ => 0xff, .array, 0, []⟩ := .inl rfl
  exact cfi_write_read (emulated everyOther) hidle (byteOf 0x1234567) (by decide) (by decide)
    (by decide)

end SpringOs.Cfi
