import SpringOs.ExecLoad

/-!
The stack image that `exec` builds, and how it is read again: by the C runtime from the
initial stack pointer, and by `main` of the root service, `roots.c`.

* **`rootsMain`**: the part of `main` that walks the environment and the auxiliary vector;
* `strings`, `words`: the memory after the loop over `argv` and after the words below it;
* `strings_harmless`: the strings are as they were given exactly if each byte copied too many
  is the one that was there;
* `stack_image_iff`: so is the whole image, with the memory around the stack.
-/

namespace SpringOs.Exec
open Kernel Lib.Word Lib.Bytes Lib.Machine Lib.Ranges PageTable Ramdisk

/-! ## Reading the stack -/

def readByte (mem : Nat → Nat → Pte) (root va : Nat) : Except Fault Byte :=
  match translate mem root va with
  | some x => .ok (byteAt mem x)
  | none => .error .wildAccess

def wordAt (mem : Nat → Nat → Pte) (a : Nat) : Nat := ofBytes (fun k => byteAt mem (a + k)) 8

def readWord (mem : Nat → Nat → Pte) (root va : Nat) : Except Fault Nat :=
  match translate mem root va with
  | some x => .ok (wordAt mem x)
  | none => .error .wildAccess

/-- What `main` of the root service prints and keeps of the auxiliary vector. -/
structure RootsAux where
  pagesz : Nat
  heapbase : Nat
  heapend : Nat
  ramdiskBase : Nat
  ramdiskEnd : Nat
  deriving DecidableEq, Repr

/-- The loop over `envp`; the result is `envp + i + 1`. -/
def skipEnvp (mem : Nat → Nat → Pte) (root : Nat) : Nat → Nat → Except Fault Nat
  | 0, _ => .error .hang
  | fuel + 1, envp => do
    let p ← readWord mem root envp
    if p = 0 then .ok (envp + 8) else skipEnvp mem root fuel (envp + 8)

def RootsAux.set (r : RootsAux) (type val : Nat) : RootsAux :=
  if type = 6 then { r with pagesz := val }
  else if type = 62 then { r with heapbase := val }
  else if type = 63 then { r with heapend := val }
  else if type = 64 then { r with ramdiskBase := val }
  else if type = 65 then { r with ramdiskEnd := val }
  else r

def auxvLoop (mem : Nat → Nat → Pte) (root : Nat) :
    Nat → Nat → RootsAux → Except Fault RootsAux
  | 0, _, _ => .error .hang
  | fuel + 1, auxv, r => do
    let type ← readWord mem root auxv
    if type = 0 then .ok r
    else do
      let val ← readWord mem root (auxv + 8)
      auxvLoop mem root fuel (auxv + 16) (r.set type val)

/-- From `envp` on; the stack has 1024 words. -/
def rootsMain (mem : Nat → Nat → Pte) (root envp : Nat) : Except Fault RootsAux := do
  let auxv ← skipEnvp mem root 1024 envp
  auxvLoop mem root 1024 auxv ⟨0, 0, 0, 0, 0⟩

/-- `chars` and a terminator stand at `p`. -/
def StringAt (mem : Nat → Nat → Pte) (root p : Nat) (chars : List Byte) : Prop :=
  ∀ j ≤ chars.length, readByte mem root (p + j) = .ok ((chars ++ [0]).getD j 0)

/-- The image at `sp` reads back as `argv`, an empty environment and the vector. -/
structure Decodes (mem : Nat → Nat → Pte) (root sp : Nat) (argv : List Arg) : Prop where
  argc : readWord mem root sp = .ok argv.length
  strings : ∀ (i : Nat) (arg : Arg), argv[i]? = some arg →
    ∃ p, readWord mem root (sp + 8 * (i + 1)) = .ok p ∧ StringAt mem root p arg.chars
  null : readWord mem root (sp + 8 * (argv.length + 1)) = .ok 0
  envp : readWord mem root (sp + 8 * (argv.length + 2)) = .ok 0
  main : rootsMain mem root (sp + 8 * (argv.length + 2)) =
    .ok ⟨pageSize, sysProcHeapBase, sysProcHeapBase + sysProcHeapSize, sysProcRamdiskBase,
      sysProcRamdiskBase + ramdiskSize⟩

/-! ## The strings -/

/-- The addresses of the strings below `t`. -/
def starts (t : Nat) : List Arg → List Nat
  | [] => []
  | arg :: rest => (t - (arg.chars.length + 1)) :: starts (t - (arg.chars.length + 1)) rest

/-- The memory after the loop over `argv`, from `x` down. -/
def strings (mem : Nat → Nat → Pte) (x : Nat) : List Arg → Nat → Nat → Pte
  | [] => mem
  | arg :: rest =>
    strings (copy mem (x - (arg.chars.length + 1))
      (fun i => (arg.chars ++ [0, arg.next]).getD i 0) (arg.chars.length + 2))
      (x - (arg.chars.length + 1)) rest

/-- The memory after `pushWords`. -/
def words (mem : Nat → Nat → Pte) (y : Nat) : List Nat → Nat → Nat → Pte
  | [] => mem
  | w :: ws => words (copy mem (y - 8) (byteOf w) 8) (y - 8) ws

def Laid (mem : Nat → Nat → Pte) (x : Nat) : List Arg → Prop
  | [] => True
  | arg :: rest =>
    (∀ j ≤ arg.chars.length,
      byteAt mem (x - (arg.chars.length + 1) + j) = (arg.chars ++ [0]).getD j 0) ∧
      Laid mem (x - (arg.chars.length + 1)) rest

/-- The byte behind each string is the one it is copied over: `above` for the first string,
the first byte of the string before it for every other one. -/
def Harmless (above : Byte) : List Arg → Prop
  | [] => True
  | arg :: rest => arg.next = above ∧ Harmless (arg.chars.headD 0) rest

section memory
variable {mem : Nat → Nat → Pte} {x y a p : Nat} {argv : List Arg}

theorem byteAt_strings_outside (hx : argBytes argv ≤ x) (ha : a < x - argBytes argv ∨ x < a) :
    byteAt (strings mem x argv) a = byteAt mem a := by
  induction argv generalizing mem x with
  | nil => rfl
  | cons arg rest ih =>
    rw [argBytes] at hx ha
    rw [strings, ih (by omega) (by omega), byteAt_copy, if_neg (by omega)]

theorem getD_pushed (arg : Arg) {j : Nat} (hj : j ≤ arg.chars.length) :
    (arg.chars ++ [0, arg.next]).getD j 0 = (arg.chars ++ [0]).getD j 0 := by
  have hsplit : arg.chars ++ [0, arg.next] = arg.chars ++ [0] ++ [arg.next] := by simp
  rw [hsplit, List.getD_append _ _ _ _ (by simp; omega)]

theorem byteAt_strings_top {arg : Arg} {rest : List Arg} (hx : argBytes (arg :: rest) ≤ x) :
    byteAt (strings mem x (arg :: rest)) x = arg.next := by
  rw [argBytes] at hx
  have htop : x - (x - (arg.chars.length + 1)) = arg.chars.length + 1 := by omega
  rw [strings, byteAt_strings_outside (by omega) (by omega), byteAt_copy, if_pos (by omega), htop,
    List.getD_append_right _ _ _ _ (by omega), Nat.add_sub_cancel_left]
  rfl

/-- Of the string pushed first only its first byte can be overwritten later. -/
theorem first_string {arg : Arg} {rest : List Arg} (hx : argBytes (arg :: rest) ≤ x) :
    (∀ j ≤ arg.chars.length, byteAt (strings mem x (arg :: rest)) (x - (arg.chars.length + 1) + j) =
        (arg.chars ++ [0]).getD j 0) ↔
      byteAt (strings mem x (arg :: rest)) (x - (arg.chars.length + 1)) = arg.chars.headD 0 := by
  rw [argBytes] at hx
  have hhead : (arg.chars ++ [0]).getD 0 0 = arg.chars.headD 0 := by
    cases arg.chars with
    | nil => rfl
    | cons c cs => rfl
  constructor
  · intro h
    rw [← hhead]
    exact h 0 (Nat.zero_le _)
  · intro h j hj
    cases j with
    | zero => rw [hhead, ← h, Nat.add_zero]
    | succ j =>
      rw [strings, byteAt_strings_outside (by omega) (by omega), byteAt_copy, if_pos (by omega),
        Nat.add_sub_cancel_left, getD_pushed arg hj]

/-- **The strings** and the byte above them are intact exactly if no byte copied too many did
any harm. -/
theorem strings_harmless (hx : argBytes argv ≤ x) :
    byteAt (strings mem x argv) x = byteAt mem x ∧ Laid (strings mem x argv) x argv ↔
      Harmless (byteAt mem x) argv := by
  induction argv generalizing mem x with
  | nil => exact iff_of_true ⟨rfl, trivial⟩ trivial
  | cons arg rest ih =>
    have hrest : argBytes rest ≤ x - (arg.chars.length + 1) := by
      rw [argBytes] at hx
      omega
    have hfirst : ∀ mem', mem' = copy mem (x - (arg.chars.length + 1))
        (fun i => (arg.chars ++ [0, arg.next]).getD i 0) (arg.chars.length + 2) →
        byteAt mem' (x - (arg.chars.length + 1)) = arg.chars.headD 0 := by
      rintro mem' rfl
      rw [byteAt_copy, if_pos (by omega), Nat.sub_self]
      cases arg.chars with
      | nil => rfl
      | cons c cs => rfl
    rw [byteAt_strings_top hx, Laid, Harmless, first_string hx, ← hfirst _ rfl, ← ih hrest,
      hfirst _ rfl]
    rfl

theorem strings_page_below (hx : argBytes argv ≤ x)
    (hp : ∀ a, x - argBytes argv ≤ a → a ≤ x → p ≠ pageOf a) : strings mem x argv p = mem p := by
  induction argv generalizing mem x with
  | nil => rfl
  | cons arg rest ih =>
    rw [argBytes] at hx hp
    rw [strings, ih (by omega) fun a hlo hhi => hp a (by omega) (by omega)]
    exact copy_of_pageOf_ne (fun i hi => hp _ (by omega) (by omega)) _

theorem strings_page (hx : argBytes argv ≤ x)
    (hp : ∀ a, x - argBytes argv ≤ a → a < x → p ≠ pageOf a)
    (htop : byteAt (strings mem x argv) x = byteAt mem x) : strings mem x argv p = mem p := by
  cases argv with
  | nil => rfl
  | cons arg rest =>
    rw [byteAt_strings_top hx] at htop
    rw [argBytes] at hx hp
    have hend : x - (arg.chars.length + 1) + (arg.chars.length + 1) = x := by omega
    -- the last byte of the copy is the one that is there
    have hlast : (arg.chars ++ [0, arg.next]).getD (arg.chars.length + 1) 0 =
        byteAt (copy mem (x - (arg.chars.length + 1))
          (fun i => (arg.chars ++ [0, arg.next]).getD i 0) (arg.chars.length + 1)) x := by
      rw [byteAt_copy, if_neg (by omega), ← htop, List.getD_append_right _ _ _ _ (by omega),
        Nat.add_sub_cancel_left]
      rfl
    rw [strings, strings_page_below (by omega) fun a hlo hhi => hp a (by omega) (by omega), copy,
      hend, hlast, setByte_byteAt]
    exact copy_of_pageOf_ne (fun i hi => hp _ (by omega) (by omega)) _

/-! ## The words -/

variable {ws : List Nat}

theorem byteAt_words_outside (hy : 8 * ws.length ≤ y) (ha : a < y - 8 * ws.length ∨ y ≤ a) :
    byteAt (words mem y ws) a = byteAt mem a := by
  induction ws generalizing mem y with
  | nil => rfl
  | cons w ws ih =>
    rw [List.length_cons] at hy ha
    rw [words, ih (by omega) (by omega), byteAt_copy, if_neg (by omega)]

theorem words_page (hy : 8 * ws.length ≤ y)
    (hp : ∀ a, y - 8 * ws.length ≤ a → a < y → p ≠ pageOf a) : words mem y ws p = mem p := by
  induction ws generalizing mem y with
  | nil => rfl
  | cons w ws ih =>
    rw [List.length_cons] at hy hp
    rw [words, ih (by omega) fun a hlo hhi => hp a (by omega) (by omega)]
    exact copy_of_pageOf_ne (fun i hi => hp _ (by omega) (by omega)) _

theorem wordAt_congr {mem' : Nat → Nat → Pte}
    (h : ∀ k < 8, byteAt mem' (a + k) = byteAt mem (a + k)) : wordAt mem' a = wordAt mem a :=
  ofBytes_congr h

theorem wordAt_copy (w : Nat) : wordAt (copy mem a (byteOf w) 8) a = w % 2 ^ 64 := by
  have hbytes : ∀ k < 8, byteAt (copy mem a (byteOf w) 8) (a + k) = byteOf w k := by
    intro k hk
    rw [byteAt_copy, if_pos (by omega), Nat.add_sub_cancel_left]
  exact (ofBytes_congr hbytes).trans (ofBytes_byteOf w 8)

theorem wordAt_words (hy : 8 * ws.length ≤ y) {k : Nat} (hk : k < ws.length) :
    wordAt (words mem y ws) (y - 8 * ws.length + 8 * k) = ws.reverse.getD k 0 % 2 ^ 64 := by
  induction ws generalizing mem y with
  | nil => cases hk
  | cons w ws ih =>
    rw [List.length_cons] at hy hk ⊢
    rw [words, List.reverse_cons]
    have haddr : y - 8 * (ws.length + 1) + 8 * k = y - 8 - 8 * ws.length + 8 * k := by omega
    rw [haddr]
    by_cases hlast : k < ws.length
    · rw [ih (by omega) hlast, List.getD_append _ _ _ _ (by simpa using hlast)]
    · obtain rfl : k = ws.length := by omega
      have htop : y - 8 - 8 * ws.length + 8 * ws.length = y - 8 := by omega
      rw [htop, wordAt_congr fun j hj => byteAt_words_outside (by omega) (by omega), wordAt_copy,
        List.getD_append_right _ _ _ _ (by simp)]
      simp

end memory

/-! ## `setup_argv` and the rest, as one memory -/

section setup
variable {root pa : Nat} {st : ExecState} {argv : List Arg}

theorem user_addr {x d : Nat} (hlow : x + d < 2 ^ 48) (hd : d ≤ 8192) :
    u64 (stackTop - (ptov (x + d) - ptov x)) = stackTop - d := by
  have htop : stackTop = 4026540032 := rfl
  have hdiff : (ptov (x + d) : Int) - ptov x = d := by
    rw [ptov_of_lt hlow, ptov_of_lt (by omega)]
    omega
  rw [hdiff, htop]
  unfold u64
  omega

theorem pushArgs_eq {x d : Nat} {argvp : List Nat} (hlow : x + d < 2 ^ 48)
    (hd : d + argBytes argv ≤ 8192) (hx : argBytes argv ≤ x)
    (hargc : argvp.length + argv.length ≤ maxArg) :
    pushArgs (ptov (x + d)) argv (ptov x) argvp st =
      .ok (ptov (x - argBytes argv), argvp ++ starts (stackTop - d) argv ++ [0],
        { st with pt := { st.pt with mem := strings st.pt.mem x argv } }) := by
  induction argv generalizing x d argvp st with
  | nil =>
    rw [pushArgs, if_pos (by simpa using hargc)]
    simp [starts, strings, argBytes]
  | cons arg rest ih =>
    rw [argBytes] at hd hx
    rw [List.length_cons] at hargc
    have hva : u64 (ptov x - (arg.chars.length + 1 : Nat)) = ptov (x - (arg.chars.length + 1)) :=
      ptov_sub (by omega) (by omega)
    have hphys : vtop (ptov (x - (arg.chars.length + 1))) = x - (arg.chars.length + 1) :=
      vtop_ptov (by omega)
    have hsum : x + d = x - (arg.chars.length + 1) + (d + (arg.chars.length + 1)) := by omega
    have hptr : u64 (stackTop - (ptov (x + d) - ptov (x - (arg.chars.length + 1)))) =
        stackTop - (d + (arg.chars.length + 1)) := by
      rw [hsum]
      exact user_addr (by omega) (by omega)
    have hmore (ptr : Nat) : (argvp ++ [ptr]).length + rest.length ≤ maxArg := by
      rw [List.length_append, List.length_singleton]
      omega
    rw [pushArgs, hva, if_pos (by omega), hptr, hsum, ih (by omega) (by omega) (by omega) (hmore _)]
    simp only [starts, strings, argBytes, ExecState.write, hphys, Nat.sub_sub, List.append_assoc,
      List.cons_append, List.nil_append]

theorem pushWords_eq {ws : List Nat} {y : Nat} (hlow : y < 2 ^ 48) (hy : 8 * ws.length ≤ y) :
    pushWords ws (ptov y) st = (ptov (y - 8 * ws.length),
      { st with pt := { st.pt with mem := words st.pt.mem y ws } }) := by
  induction ws generalizing y st with
  | nil => rfl
  | cons w ws ih =>
    rw [List.length_cons] at hy
    have hva : u64 (ptov y - (8 : Nat)) = ptov (y - 8) := ptov_sub hlow (by omega)
    have hphys : vtop (ptov (y - 8)) = y - 8 := vtop_ptov (by omega)
    change pushWords ws (u64 (ptov y - (8 : Nat)))
      (st.write (u64 (ptov y - (8 : Nat))) 8 (byteOf w)) = _
    have hend : y - 8 - 8 * ws.length = y - 8 * (ws.length + 1) := by omega
    rw [hva, ih (by omega) (by omega), hend]
    simp only [words, ExecState.write, hphys, List.length_cons]

/-- The two pages of the stack, as `exec` has mapped them: one block of memory from below
64 GiB that holds no table. -/
structure StackReady (root : Nat) (mem : Nat → Nat → Pte) (pa : Nat) : Prop where
  leads : ∀ j < stackSize, translate mem root (stackBase + j) = some (pa + j)
  paged : (look mem root (vpn stackBase)).1 = 0
  page : pa % 4096 = 0
  low : pa < 68719476736
  apart : ∀ r q p, IsTable mem root r q p → ∀ j < stackSize, p ≠ pageOf (pa + j)

/-- **`exec`** leaves the stack so when it has mapped the regions. -/
theorem mapRegions_ready {st' : ExecState} (hst : Tables root st.pt) (hflat : Flat root st.pt.mem)
    (hstack : ∀ pa, st.answers.head? = some (some pa) →
      Clear root st.pt ⟨pa, stackSize⟩ ∧ pa + stackSize ≤ 68719476736)
    (h : mapRegions root st = .ok (0, st')) :
    ∃ pa, st.answers.head? = some (some pa) ∧ StackReady root st'.pt.mem pa := by
  have hbig : stackSize = 8192 := rfl
  obtain ⟨pa, mapped, hpa, hpage, -, hgrown, hleads⟩ :=
    mapRegions_grown hst hflat (fun pa hpa => (hstack pa hpa).2) h
  obtain ⟨hclear, hlow⟩ := hstack pa hpa
  refine ⟨pa, hpa, hleads, ?_, hpage, by omega, fun r q p hp j hj => ?_⟩
  · exact look_page_of_translate hgrown.tables hgrown.flat (hleads 0 (by decide))
  · have hapart := (hgrown.clear hclear).tables hp
    unfold Extent.Apart PageTable.page at hapart
    unfold pageOf
    dsimp only at hapart
    omega

def image (argv : List Arg) : List Nat :=
  auxv ++ [0] ++ (starts stackTop argv ++ [0]).reverse ++ [argv.length]

/-- Where the words begin, and where the stack pointer is left, in bytes from the bottom. -/
def wordsTop (argv : List Arg) : Nat := (stackSize - argBytes argv) / 8 * 8

def spOff (argv : List Arg) : Nat := wordsTop argv - 8 * (argv.length + 17)

def stackMem (mem : Nat → Nat → Pte) (pa : Nat) (argv : List Arg) : Nat → Nat → Pte :=
  words (strings mem (pa + stackSize) argv) (pa + wordsTop argv) (image argv)

theorem starts_length (t : Nat) (argv : List Arg) : (starts t argv).length = argv.length := by
  induction argv generalizing t with
  | nil => rfl
  | cons arg rest ih => rw [starts, List.length_cons, ih, List.length_cons]

theorem image_length (argv : List Arg) : (image argv).length = argv.length + 17 := by
  simp only [image, List.length_append, List.length_reverse, starts_length, List.length_cons,
    List.length_nil]
  change 14 + 1 + (argv.length + 1) + 1 = argv.length + 17
  omega

theorem setupStack_eq (h : StackReady root st.pt.mem pa) (entry : Nat)
    (hargc : argv.length ≤ maxArg) (hfit : ArgsFit argv) :
    setupStack root entry argv st = .ok (0, { st with
      pt := { st.pt with mem := stackMem st.pt.mem pa argv }
      elr := entry
      sp0 := stackBase + spOff argv
      ready := true }) := by
  have hbig : stackSize = 8192 := rfl
  have htop : stackTop = stackBase + 8192 := rfl
  have hpage := h.page
  have hlow := h.low
  unfold ArgsFit argsSize at hfit
  have hwalk : pgtblWalk st.pt.mem root stackBase = .ok pa := by
    have hlead : translate st.pt.mem root stackBase = some pa := h.leads 0 (by decide)
    rw [(pgtblWalk_of_page hlead h.paged).1, Nat.mod_eq_of_lt hlow]
  have hargs : pushArgs (ptov (pa + stackSize)) argv (ptov (pa + stackSize)) [] st =
      .ok (ptov (pa + stackSize - argBytes argv), [] ++ starts stackTop argv ++ [0],
        { st with pt := { st.pt with mem := strings st.pt.mem (pa + stackSize) argv } }) :=
    pushArgs_eq (x := pa + stackSize) (d := 0) (by omega) (by omega) (by omega)
      (by simpa using hargc)
  have halign : alignDown (ptov (pa + stackSize - argBytes argv)) 8 =
      ptov (pa + wordsTop argv) := by
    rw [alignDown_ptov (by omega), wordsTop]
    congr 1
    omega
  have hroom : 8 * (argv.length + 17) ≤ wordsTop argv ∧ wordsTop argv ≤ 8192 := by
    unfold wordsTop
    omega
  have hsp : pa + wordsTop argv - 8 * (argv.length + 17) = pa + spOff argv := by
    unfold spOff
    omega
  have huser : u64 (stackTop - (ptov (pa + stackSize) - ptov (pa + spOff argv))) =
      stackBase + spOff argv := by
    have hsum : pa + stackSize = pa + spOff argv + (8192 - spOff argv) := by
      unfold spOff
      omega
    rw [hsum, user_addr (by omega) (by omega), htop]
    unfold spOff
    omega
  have hwords (st : ExecState) : pushWords (auxv ++ [0] ++ (starts stackTop argv ++ [0]).reverse ++
      [argv.length]) (ptov (pa + wordsTop argv)) st = (ptov (pa + spOff argv), { st with
        pt := { st.pt with mem := words st.pt.mem (pa + wordsTop argv) (image argv) } }) := by
    have hlen := image_length argv
    change pushWords (image argv) (ptov (pa + wordsTop argv)) st = _
    rw [← hsp, ← hlen]
    exact pushWords_eq (by omega) (by omega)
  unfold setupStack
  rw [hwalk]
  change (pushArgs (ptov (pa + stackSize)) argv (ptov (pa + stackSize)) [] st >>= _) = _
  rw [hargs]
  simp only [bind, Except.bind, List.nil_append, halign, hwords, huser]
  rfl

end setup

/-! ## The image read back -/

section read
variable {root pa : Nat} {mem mem' : Nat → Nat → Pte} {argv : List Arg} {arg : Arg} {i t : Nat}

theorem starts_add (c : Nat) (h : argBytes argv ≤ t) :
    starts (c + t) argv = (starts t argv).map (c + ·) := by
  induction argv generalizing t with
  | nil => rfl
  | cons arg rest ih =>
    rw [argBytes] at h
    have hsub : c + t - (arg.chars.length + 1) = c + (t - (arg.chars.length + 1)) := by omega
    rw [starts, starts, hsub, ih (by omega), List.map_cons]

theorem starts_getD_add (c : Nat) (h : argBytes argv ≤ t) (hi : i < argv.length) :
    (starts (c + t) argv).getD i 0 = c + (starts t argv).getD i 0 := by
  have hlen : i < (starts t argv).length := by rwa [starts_length]
  rw [starts_add c h, List.getD_eq_getElem _ _ (by rwa [List.length_map]), List.getElem_map,
    List.getD_eq_getElem _ _ hlen]

theorem starts_bounds (h : argBytes argv ≤ t) (hi : argv[i]? = some arg) :
    t - argBytes argv ≤ (starts t argv).getD i 0 ∧
      (starts t argv).getD i 0 + arg.chars.length + 1 ≤ t := by
  induction argv generalizing t i with
  | nil => cases hi
  | cons first rest ih =>
    rw [argBytes] at h ⊢
    cases i with
    | zero =>
      obtain rfl : first = arg := Option.some.inj hi
      rw [starts, List.getD_cons_zero]
      omega
    | succ i =>
      have := ih (t := t - (first.chars.length + 1)) (i := i) (by omega) hi
      rw [starts, List.getD_cons_succ]
      omega

theorem laid_iff (c : Nat) (h : argBytes argv ≤ t) :
    Laid mem (c + t) argv ↔ ∀ i arg, argv[i]? = some arg → ∀ j ≤ arg.chars.length,
      byteAt mem (c + (starts t argv).getD i 0 + j) = (arg.chars ++ [0]).getD j 0 := by
  induction argv generalizing t with
  | nil => simp [Laid]
  | cons first rest ih =>
    rw [argBytes] at h
    have hsub : c + t - (first.chars.length + 1) = c + (t - (first.chars.length + 1)) := by omega
    rw [Laid, hsub, ih (by omega)]
    constructor
    · rintro ⟨hfirst, hrest⟩ i arg hi
      cases i with
      | zero =>
        obtain rfl : first = arg := Option.some.inj hi
        exact hfirst
      | succ i => exact hrest i arg hi
    · intro hall
      exact ⟨hall 0 first rfl, fun i arg hi => hall (i + 1) arg hi⟩

theorem image_up (argv : List Arg) :
    (image argv).reverse = argv.length :: (starts stackTop argv ++ 0 :: 0 :: auxv.reverse) := by
  simp [image]

theorem image_string (hi : i < argv.length) :
    (image argv).reverse.getD (i + 1) 0 = (starts stackTop argv).getD i 0 := by
  rw [image_up, List.getD_cons_succ, List.getD_append _ _ _ _ (by rwa [starts_length])]

theorem image_rest (argv : List Arg) (j : Nat) :
    (image argv).reverse.getD (argv.length + 1 + j) 0 = (0 :: 0 :: auxv.reverse).getD j 0 := by
  have hidx : argv.length + 1 + j = argv.length + j + 1 := by omega
  rw [image_up, hidx, List.getD_cons_succ,
    List.getD_append_right _ _ _ _ (by rw [starts_length]; omega), starts_length,
    Nat.add_sub_cancel_left]

theorem auxvLoop_step {fuel a type val : Nat} {r : RootsAux}
    (htype : readWord mem root a = .ok type) (hne : type ≠ 0)
    (hval : readWord mem root (a + 8) = .ok val) :
    auxvLoop mem root (fuel + 1) a r = auxvLoop mem root fuel (a + 16) (r.set type val) := by
  rw [auxvLoop, htype]
  simp only [bind, Except.bind, if_neg hne, hval]

/-- `main` reads the vector that `exec` stored, and stops at its end. -/
theorem rootsMain_image {e : Nat} (hnull : readWord mem root e = .ok 0)
    (h : ∀ j < 14, readWord mem root (e + 8 + 8 * j) = .ok (auxv.reverse.getD j 0)) :
    rootsMain mem root e = .ok ⟨pageSize, sysProcHeapBase, sysProcHeapBase + sysProcHeapSize,
      sysProcRamdiskBase, sysProcRamdiskBase + ramdiskSize⟩ := by
  have hskip : skipEnvp mem root 1024 e = .ok (e + 8) := by
    rw [skipEnvp, hnull]
    rfl
  rw [rootsMain, hskip]
  refine (auxvLoop_step (h 0 (by decide)) (by decide) (h 1 (by decide))).trans ?_
  refine (auxvLoop_step (h 2 (by decide)) (by decide) (h 3 (by decide))).trans ?_
  refine (auxvLoop_step (h 4 (by decide)) (by decide) (h 5 (by decide))).trans ?_
  refine (auxvLoop_step (h 6 (by decide)) (by decide) (h 7 (by decide))).trans ?_
  refine (auxvLoop_step (h 8 (by decide)) (by decide) (h 9 (by decide))).trans ?_
  refine (auxvLoop_step (h 10 (by decide)) (by decide) (h 11 (by decide))).trans ?_
  have hend : readWord mem root (e + 8 + 8 * 12) = .ok 0 := h 12 (by decide)
  have hstop : ∀ r, auxvLoop mem root 1018 (e + 8 + 8 * 12) r = .ok r := by
    intro r
    rw [auxvLoop, hend]
    rfl
  exact (hstop _).trans (congrArg Except.ok (by decide))

theorem readByte_same (hsame : SameTables root mem mem') (h : StackReady root mem pa) {o : Nat}
    (ho : o < stackSize) : readByte mem' root (stackBase + o) = .ok (byteAt mem' (pa + o)) := by
  rw [readByte, hsame.translate, h.leads o ho]

theorem readWord_same (hsame : SameTables root mem mem') (h : StackReady root mem pa) {o : Nat}
    (ho : o < stackSize) : readWord mem' root (stackBase + o) = .ok (wordAt mem' (pa + o)) := by
  rw [readWord, hsame.translate, h.leads o ho]

variable (hfit : ArgsFit argv)
include hfit

theorem room : argBytes argv + wordsTop argv ≤ 8192 ∧
    spOff argv + 8 * (argv.length + 17) = wordsTop argv := by
  have hbig : stackSize = 8192 := rfl
  unfold ArgsFit argsSize at hfit
  unfold spOff wordsTop
  omega

theorem byteAt_stackMem {a : Nat} (ha : a < pa + spOff argv ∨ pa + wordsTop argv ≤ a) :
    byteAt (stackMem mem pa argv) a = byteAt (strings mem (pa + stackSize) argv) a := by
  have hlen := image_length argv
  have hroom := room hfit
  exact byteAt_words_outside (by omega) (by omega)

/-- The memory around the stack stays exactly if the byte above it does. -/
theorem kept_iff : (∀ a, a < pa ∨ pa + stackSize ≤ a →
      byteAt (stackMem mem pa argv) a = byteAt mem a) ↔
    byteAt (strings mem (pa + stackSize) argv) (pa + stackSize) = byteAt mem (pa + stackSize) := by
  have hbig : stackSize = 8192 := rfl
  have hroom := room hfit
  constructor
  · intro hkept
    rw [← byteAt_stackMem hfit (by omega)]
    exact hkept _ (.inr (Nat.le_refl _))
  · intro htop a ha
    rw [byteAt_stackMem hfit (by omega)]
    by_cases hat : a = pa + stackSize
    · rw [hat, htop]
    · exact byteAt_strings_outside (by omega) (by omega)

theorem stackMem_same (h : StackReady root mem pa)
    (htop : byteAt (strings mem (pa + stackSize) argv) (pa + stackSize) =
      byteAt mem (pa + stackSize)) : SameTables root mem (stackMem mem pa argv) := by
  have hbig : stackSize = 8192 := rfl
  have hlen := image_length argv
  have hroom := room hfit
  intro r q p hp
  have hpage : ∀ a, pa ≤ a → a < pa + stackSize → p ≠ pageOf a := by
    intro a hlo hhi
    have hne := h.apart r q p hp (a - pa) (by omega)
    rwa [Nat.add_sub_cancel' hlo] at hne
  rw [stackMem, words_page (by omega) fun a hlo hhi => hpage a (by omega) (by omega)]
  exact strings_page (by omega) (fun a hlo hhi => hpage a (by omega) hhi) htop

theorem readWord_image (h : StackReady root mem pa)
    (hsame : SameTables root mem (stackMem mem pa argv)) {k : Nat} (hk : k < argv.length + 17) :
    readWord (stackMem mem pa argv) root (stackBase + spOff argv + 8 * k) =
      .ok ((image argv).reverse.getD k 0 % 2 ^ 64) := by
  have hbig : stackSize = 8192 := rfl
  have hlen := image_length argv
  have hroom := room hfit
  have haddr : pa + (spOff argv + 8 * k) =
      pa + wordsTop argv - 8 * (image argv).length + 8 * k := by omega
  rw [Nat.add_assoc, readWord_same hsame h (by omega), haddr, stackMem,
    wordAt_words (by omega) (by omega)]

theorem stringAt_iff (h : StackReady root mem pa)
    (hsame : SameTables root mem (stackMem mem pa argv)) (hi : argv[i]? = some arg) :
    StringAt (stackMem mem pa argv) root (stackBase + (starts stackSize argv).getD i 0) arg.chars ↔
      ∀ j ≤ arg.chars.length, byteAt (strings mem (pa + stackSize) argv)
        (pa + (starts stackSize argv).getD i 0 + j) = (arg.chars ++ [0]).getD j 0 := by
  have hbig : stackSize = 8192 := rfl
  have hroom := room hfit
  obtain ⟨hlo, hhi⟩ := starts_bounds (t := stackSize) (by omega) hi
  refine forall_congr' fun j => imp_congr_right fun hj => ?_
  rw [Nat.add_assoc, readByte_same hsame h (by omega), byteAt_stackMem hfit (by omega),
    Nat.add_assoc, Except.ok.injEq]

/-- **What can be read back**: all but the strings, and these exactly as far as they are
intact. -/
theorem decodes_iff (h : StackReady root mem pa) (hargc : argv.length ≤ maxArg)
    (hsame : SameTables root mem (stackMem mem pa argv)) :
    Decodes (stackMem mem pa argv) root (stackBase + spOff argv) argv ↔
      Laid (strings mem (pa + stackSize) argv) (pa + stackSize) argv := by
  have hbig : stackSize = 8192 := rfl
  have hbase : stackBase = 4026531840 := rfl
  have hmax : maxArg = 32 := rfl
  have hroom := room hfit
  have hrest : ∀ j < 16, readWord (stackMem mem pa argv) root
      (stackBase + spOff argv + 8 * (argv.length + 1 + j)) =
        .ok ((0 :: 0 :: auxv.reverse).getD j 0) := by
    intro j hj
    have hsmall : ∀ j < 16, (0 :: 0 :: auxv.reverse).getD j 0 % 2 ^ 64 =
        (0 :: 0 :: auxv.reverse).getD j 0 := by decide
    rw [readWord_image hfit h hsame (by omega), image_rest, hsmall j hj]
  have hptr : ∀ i < argv.length, readWord (stackMem mem pa argv) root
      (stackBase + spOff argv + 8 * (i + 1)) =
        .ok (stackBase + (starts stackSize argv).getD i 0) := by
    intro i hi
    have hbounds := starts_bounds (t := stackSize) (by omega) (List.getElem?_eq_getElem hi)
    have htop : stackTop = stackBase + stackSize := rfl
    rw [readWord_image hfit h hsame (by omega), image_string hi, htop,
      starts_getD_add stackBase (by omega) hi, Nat.mod_eq_of_lt (by omega)]
  rw [laid_iff pa (by omega)]
  constructor
  · intro hdec i arg hi
    obtain ⟨p, hp, hstring⟩ := hdec.strings i arg hi
    rw [hptr i (List.getElem?_eq_some_iff.1 hi).1] at hp
    obtain rfl := Except.ok.inj hp
    exact (stringAt_iff hfit h hsame hi).1 hstring
  · intro hlaid
    constructor
    case argc =>
      have hzero := readWord_image hfit h hsame (k := 0) (by omega)
      rwa [Nat.mul_zero, Nat.add_zero, image_up, List.getD_cons_zero,
        Nat.mod_eq_of_lt (by omega)] at hzero
    case strings =>
      intro i arg hi
      exact ⟨_, hptr i (List.getElem?_eq_some_iff.1 hi).1,
        (stringAt_iff hfit h hsame hi).2 (hlaid i arg hi)⟩
    case null => exact hrest 0 (by decide)
    case envp => exact hrest 1 (by decide)
    case main =>
      refine rootsMain_image (hrest 1 (by decide)) fun j hj => ?_
      have haddr : stackBase + spOff argv + 8 * (argv.length + 2) + 8 + 8 * j =
          stackBase + spOff argv + 8 * (argv.length + 1 + (j + 2)) := by omega
      rw [haddr, hrest (j + 2) (by omega), List.getD_cons_succ, List.getD_cons_succ]

end read

/-- **The stack image of `exec`.** For every `argv` of at most `MAXARG` strings that fits in
the stack, the image reads back as it was given and the memory around the stack stays,
**exactly if** the byte behind each string, which `memcpy` copies too, is the one it is copied
over: the first byte of the string before it, and for the first string the byte above the
stack. No other byte outside the stack changes. -/
theorem stack_image_iff {root pa : Nat} {st : ExecState} {argv : List Arg}
    (h : StackReady root st.pt.mem pa) (hargc : argv.length ≤ maxArg) (hfit : ArgsFit argv)
    (entry : Nat) :
    ∃ st', setupStack root entry argv st = .ok (0, st') ∧
      (Decodes st'.pt.mem root st'.sp0 argv ∧
          (∀ a, a < pa ∨ pa + stackSize ≤ a → byteAt st'.pt.mem a = byteAt st.pt.mem a) ↔
        Harmless (byteAt st.pt.mem (pa + stackSize)) argv) ∧
      ∀ a, a < pa ∨ pa + stackSize < a → byteAt st'.pt.mem a = byteAt st.pt.mem a := by
  have hbig : stackSize = 8192 := rfl
  have hroom := room hfit
  refine ⟨_, setupStack_eq h entry hargc hfit, ?_, fun a ha => ?_⟩
  · dsimp only
    rw [kept_iff hfit, ← strings_harmless (by omega), and_comm]
    exact and_congr_right fun htop => decodes_iff hfit h hargc (stackMem_same hfit h htop)
  · dsimp only
    rw [byteAt_stackMem hfit (by omega), byteAt_strings_outside (by omega) (by omega)]

/-- A process with nothing but its stack, at 8 MiB in memory that is zero. -/
def stackSpace : ExecState where
  pt := ((pagetableMap (newSpace [8192, 12288, 16384]) 4096 stackBase 0x800000 stackSize
    0).toOption.map Prod.snd).getD (newSpace [])
  answers := []
  requests := []
  freed := []
  elr := 0
  sp0 := 0
  ready := false

theorem stackSpace_ready : StackReady 4096 stackSpace.pt.mem 0x800000 := by
  have hrun : pagetableMap (newSpace [8192, 12288, 16384]) 4096 stackBase 0x800000 stackSize 0 =
      .ok (0, stackSpace.pt) := by
    obtain ⟨pt, hpt⟩ := exists_of_run (show (pagetableMap (newSpace [8192, 12288, 16384]) 4096
      stackBase 0x800000 stackSize 0).toOption.map Prod.fst = some 0 by decide +kernel)
    rw [stackSpace, hpt]
    rfl
  obtain ⟨-, hrange⟩ := pagetableMap_range (newSpace_tables (by decide) (by decide) (by decide)
    (by decide)) (fun _ _ => .inl rfl) (by decide) (by decide) hrun (Int.le_refl 0)
  constructor
  case leads => exact hrange.leads (by decide)
  case paged => decide +kernel
  case page => decide
  case low => decide
  case apart =>
    intro r q p hp j hj
    have hbig : stackSize = 8192 := rfl
    have hlow : p ≤ 16384 := by
      rcases hrange.grown.new hp with hold | hfree
      · obtain ⟨-, -, rfl⟩ := newSpace_isTable hold
        decide
      · exact (show ∀ p ∈ [8192, 12288, 16384], p ≤ 16384 by decide) p hfree
    unfold pageOf
    omega

/-- Two arguments that happen to lie so: `a`, then `b` with the `a` behind it. -/
theorem stack_image_two_args :
    ∃ st', setupStack 4096 0 [⟨[97], 0⟩, ⟨[98], 97⟩] stackSpace = .ok (0, st') ∧
      Decodes st'.pt.mem 4096 st'.sp0 [⟨[97], 0⟩, ⟨[98], 97⟩] := by
  obtain ⟨st', hrun, hiff, -⟩ :=
    @stack_image_iff 4096 0x800000 stackSpace [⟨[97], 0⟩, ⟨[98], 97⟩] stackSpace_ready (by decide)
      (by decide) 0
  refine ⟨st', hrun, (hiff.2 ⟨?_, rfl, trivial⟩).1⟩
  decide +kernel

/-- Two arguments `a` and `b`, each with a zero byte behind its terminator: the first one reads
as empty. A byte 7 behind the first terminator lands above the stack. -/
theorem stack_image_overwritten :
    (setupStack 4096 0 [⟨[97], 0⟩, ⟨[98], 0⟩] stackSpace).toOption.map (fun x =>
        (readWord x.2.pt.mem 4096 (x.2.sp0 + 8)).toOption.bind fun p =>
          (readByte x.2.pt.mem 4096 p).toOption) = some (some 0) ∧
      (setupStack 4096 0 [⟨[97], 7⟩] stackSpace).toOption.map (fun x =>
        (byteAt stackSpace.pt.mem (0x800000 + stackSize),
          byteAt x.2.pt.mem (0x800000 + stackSize))) = some (0, 7) := by
  decide +kernel

end SpringOs.Exec
