import SpringOs.PageWalk
import SpringOs.Ramdisk

/-!
`exec` of `exec.c`: the program headers of an ELF file, their segments in the address
space of the process, and the stack with the arguments.

Physical memory is the memory of the page tables: pages of 64-bit words, read and
written here by the byte. What `kalloc` and `page_allocn` answer is part of the state, and
so is what that memory holds. The ramdisk is not part of the memory they hand out.
-/

namespace SpringOs.Exec
open Kernel Lib.Word Lib.Bytes PageTable Ramdisk

/-! ## ELF headers -/

def elfMagic : Nat := 0x464C457F
def elfProgLoad : Nat := 1

/-- The fields of `struct elfhdr` that are read. -/
structure ElfHdr where
  magic : Nat
  entry : Nat
  phoff : Nat
  phnum : Nat

/-- The fields of `struct proghdr` that are read. -/
structure ProgHdr where
  type : Nat
  off : Nat
  vaddr : Nat
  filesz : Nat
  memsz : Nat

def elfHdrSize : Nat := 64
def progHdrSize : Nat := 56

def elfHdr (src : Nat → Byte) : ElfHdr where
  magic := ofBytes (view src 0) 4
  entry := ofBytes (view src 24) 8
  phoff := ofBytes (view src 32) 8
  phnum := ofBytes (view src 56) 2

def progHdr (src : Nat → Byte) : ProgHdr where
  type := ofBytes (view src 0) 4
  off := ofBytes (view src 8) 8
  vaddr := ofBytes (view src 16) 8
  filesz := ofBytes (view src 32) 8
  memsz := ofBytes (view src 40) 8

/-! ## The state -/

/-- Memory and `page_alloc`, what `kalloc` and `page_allocn` will answer (a physical
address, or null) and the sizes they have been asked for, the addresses given to `kfree`, and
the context of the process. -/
structure ExecState where
  pt : PtState
  answers : List (Option Nat)
  requests : List Nat
  freed : List Nat
  elr : Nat
  sp0 : Nat
  ready : Bool

/-- `kalloc` and `page_allocn`, whose memory keeps what it held. -/
def kalloc (st : ExecState) (size : Nat) : Nat × ExecState :=
  let st := { st with requests := st.requests ++ [size] }
  match st.answers with
  | some pa :: answers => (ptov pa, { st with answers := answers })
  | none :: answers => (0, { st with answers := answers })
  | [] => (0, st)

def ExecState.write (st : ExecState) (addr size : Nat) (src : Nat → Byte) : ExecState :=
  { st with pt := { st.pt with mem := copy st.pt.mem (vtop addr) src size } }

def vmRw : Flags := 0x300000
def vmRwx : Flags := 0x700000

/-! ## Segments -/

/-- One loadable segment; the result is negative when `exec` gives up. -/
def loadSegment (disk : Nat → Byte) (inode root : Nat) (ph : ProgHdr) (st : ExecState) :
    Except Fault (Int × ExecState) :=
  if ph.memsz < ph.filesz then .ok (-1, st)
  else if u64 (ph.vaddr + ph.memsz) < ph.vaddr then .ok (-1, st)
  else
    let mapva := alignDown ph.vaddr pageSize
    let mapsz := alignUp (u64 (ph.memsz + (ph.vaddr - mapva))) pageSize
    let (addr, st) := kalloc st mapsz
    let pa := vtop addr
    do
      let (ret, pt) ← pagetableMap st.pt root mapva pa mapsz vmRwx
      let st := { st with pt := pt }
      if ret < 0 then .ok (-1, { st with freed := ptov pa :: st.freed })
      else
        let a ← pgtblWalk st.pt.mem root ph.vaddr
        match ramdiskRead disk inode ph.filesz ph.off with
        | (ret, none) => .ok (if ret < 0 then -1 else 0, st)
        | (ret, some src) =>
          .ok (if ret < 0 then -1 else 0, st.write (ptov a) ph.filesz src)

/-- The loop over the program headers, with `n` of them to go; `off` is an `int`. -/
def loadSegments (disk : Nat → Byte) (inode root : Nat) :
    Nat → Int → ExecState → Except Fault (Int × ExecState)
  | 0, _, st => .ok (0, st)
  | n + 1, off, st =>
    if (ramdiskRead disk inode progHdrSize (u64 off)).1 ≠ progHdrSize then .ok (-1, st)
    else
      let ph := progHdr fun i => fileByte disk inode (u64 off + i)
      if ph.type ≠ elfProgLoad then
        loadSegments disk inode root n (i32 (off + progHdrSize)) st
      else do
        let (ret, st) ← loadSegment disk inode root ph st
        if ret < 0 then .ok (ret, st)
        else loadSegments disk inode root n (i32 (off + progHdrSize)) st

/-! ## The other regions -/

/-- `pagetable_map` of a block, given back when that fails. -/
def mapBlock (root va addr size : Nat) (st : ExecState) : Except Fault (Int × ExecState) := do
  let (ret, pt) ← pagetableMap st.pt root va (vtop addr) size vmRw
  let st := { st with pt := pt }
  if ret ≠ 0 then .ok (-1, { st with freed := ptov (vtop addr) :: st.freed }) else .ok (0, st)

def stackTop : Nat := 0xF0002000
def stackSize : Nat := 8192
def stackBase : Nat := 0xF0000000
def sysProcHeapBase : Nat := 0x1000000000
def sysProcHeapSize : Nat := 0x100000

def mapRegions (root : Nat) (st : ExecState) : Except Fault (Int × ExecState) := do
  -- `page_allocn(2)`
  let (addr, st) := kalloc st stackSize
  let (ret, st) ← mapBlock root stackBase addr stackSize st
  if ret ≠ 0 then .ok (-1, st)
  else
    let (addr, st) := kalloc st (alignUp sysProcHeapSize pageSize)
    let (ret, st) ← mapBlock root sysProcHeapBase addr sysProcHeapSize st
    if ret ≠ 0 then .ok (-1, st)
    else mapBlock root sysProcRamdiskBase (ptov ramdiskBase) ramdiskSize st

/-! ## The arguments -/

def maxArg : Nat := 32

/-- A string of `argv`: its characters, and the byte that stands behind its terminator. -/
structure Arg where
  chars : List Byte
  next : Byte

/-- The loop over `argv`: each string goes below the last one, with one byte too many.
The result is the lowest address and `argvp`, whose entries are user addresses. -/
def pushArgs (origin : Nat) : List Arg → Nat → List Nat → ExecState →
    Except Fault (Nat × List Nat × ExecState)
  | [], va, argvp, st =>
    if argvp.length ≤ maxArg then .ok (va, argvp ++ [0], st) else .error .outOfBounds
  | arg :: rest, va, argvp, st =>
    let size := arg.chars.length + 1
    let va := u64 (va - size)
    let st := st.write va (size + 1) fun i => (arg.chars ++ [0, arg.next]).getD i 0
    if argvp.length ≤ maxArg then
      pushArgs origin rest va (argvp ++ [u64 (stackTop - (origin - va))]) st
    else .error .outOfBounds

/-- Words stored downwards from `va`. -/
def pushWords : List Nat → Nat → ExecState → Nat × ExecState
  | [], va, st => (va, st)
  | w :: ws, va, st => pushWords ws (u64 (va - 8)) (st.write (u64 (va - 8)) 8 (byteOf w))

/-- `setup_auxv`: each entry is a type with the value above it. -/
def auxv : List Nat :=
  [0, 0, pageSize, 6, 0, 16, sysProcHeapBase, 62, sysProcHeapBase + sysProcHeapSize, 63,
    sysProcRamdiskBase, 64, sysProcRamdiskBase + ramdiskSize, 65]

/-- Strings, auxiliary vector, an empty environment, `argvp` and `argc`. -/
def setupStack (root entry : Nat) (argv : List Arg) (st : ExecState) :
    Except Fault (Int × ExecState) := do
  let pa ← pgtblWalk st.pt.mem root stackBase
  let origin := ptov (pa + stackSize)
  let (va, argvp, st) ← pushArgs origin argv origin [] st
  let (va, st) := pushWords (auxv ++ [0] ++ argvp.reverse ++ [argv.length]) (alignDown va 8) st
  .ok (0, { st with elr := entry, sp0 := u64 (stackTop - (origin - va)), ready := true })

/-- `exec`, for the process with its root table at `root`; `argv` is null, or ends at its
first null pointer. -/
def exec (rd : Option (Nat → Byte)) (path : List Byte) (argv : Option (List Arg)) (root : Nat)
    (st : ExecState) : Except Fault (Int × ExecState) :=
  match argv, rd, ramdiskOpen rd (cstr path) with
  | some (arg :: rest), some disk, .ok inode =>
    if (ramdiskRead disk inode elfHdrSize 0).1 ≠ elfHdrSize then .ok (-1, st)
    else
      let elf := elfHdr (fileByte disk inode)
      if elf.magic ≠ elfMagic then .ok (-1, st)
      else do
        let (ret, st) ← loadSegments disk inode root elf.phnum (i32 elf.phoff) st
        if ret < 0 then .ok (-1, st)
        else
          let (ret, st) ← mapRegions root st
          if ret ≠ 0 then .ok (-1, st) else setupStack root elf.entry (arg :: rest) st
  | _, _, _ => .ok (-1, st)

end SpringOs.Exec
