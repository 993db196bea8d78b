import SpringOs.Lib.Word

/-!
What all kernel modules share: the ways the kernel stops, the direct map
between physical and kernel virtual addresses, and the error numbers.
-/

namespace SpringOs.Kernel
open Lib.Word

/-- The functions whose assertions and `TODO()` marks can stop the kernel, the root
service or the tool that makes the ramdisk; `objectSend` and `objectRelease` are the
callbacks of the kobject types. -/
inductive Fn
  | pageSectionInit
  | pageFree
  | caculateNrObject
  | slabAllocPool
  | slabFree
  | slabAlloc
  | slabPoolFree
  | initMm
  | kobjectGet
  | kobjectPut
  | initProcHandles
  | handleAlloc
  | createPma
  | objectSend
  | objectRelease
  | mapPtRange
  | mapPudRange
  | pagetableMap
  | pgtblWalk
  | cleanFileName
  | acquire
  | release
  | addProcToReadyList
  | rmProcFromReadyList
  | pickNext
  | sched
  | tracebufToStr
  | ftraceEnd
  | functrace
  | fmtS
  | linebufToStr
  | linebufInsert
  | linebufDel
  | splitVma
  | hfree
  | asidInit
  | asidFree
  | brkpntEnable
  | brkpntDisable
  | brkpntSuspend
  | brkpntHitHandler
  | cfiWrite
  deriving DecidableEq, Repr

/-- How the kernel stops: a failed `assert`, a `TODO()` or a `panic` in a function, a call
of `exit()`, a step through a null pointer, or through the null `next` of a handle
table, an access to memory that holds no such object or past the end of one, an `int`
expression whose value is no `int`, a loop that does not end. -/
inductive Fault
  | assertion (fn : Fn)
  | todo (fn : Fn)
  | panic (fn : Fn)
  | exit
  | nullDeref
  | nullTable
  | wildAccess
  | outOfBounds
  | overflow
  | hang
  deriving DecidableEq, Repr

/-! ## Error numbers -/

def eperm : Int := 1
def enoent : Int := 2
def enomem : Int := 12
def eacces : Int := 13
def efault : Int := 14
def einval : Int := 22
def eopnotsupp : Int := 95

/-! ## The direct map -/

/-- `CONFIG_KERNEL_ADDR_MASK`, where the direct map starts. -/
def kernelAddrMask : Nat := 0xffff000000000000

def ptov (addr : Nat) : Nat := u64 (kernelAddrMask + addr)

def vtop (addr : Nat) : Nat := u64 (addr - kernelAddrMask)

theorem ptov_of_lt {pa : Nat} (h : pa < 2 ^ 48) : ptov pa = pa + kernelAddrMask := by
  unfold ptov u64 kernelAddrMask
  omega

theorem vtop_ptov {pa : Nat} (h : pa < 2 ^ 48) : vtop (ptov pa) = pa := by
  rw [ptov_of_lt h]
  unfold vtop u64 kernelAddrMask
  omega

/-- The two maps are inverse on every 64-bit address, also where they wrap. -/
theorem vtop_ptov_of_lt {a : Nat} (h : a < 2 ^ 64) : vtop (ptov a) = a := by
  unfold vtop ptov u64 kernelAddrMask
  omega

/-- The ready lists of the scheduler and the buckets of the heap of the root service are
tables of eight. -/
instance neZero_eight : NeZero 8 := ⟨by decide⟩

end SpringOs.Kernel
