import SpringOs.Kernel
import SpringOs.Lib.Bytes

/-!
The command interpreter of the kernel monitor: `handlecmd` (`kmon/kmon.c`) and `runcmd`
(`kmon/cmd.c`).

A command line is its characters in front of the NUL. The tokens are cut in place, so what has
been passed is kept beside what is left of the line. The commands themselves are a parameter.

* `tokens_white`, `tokens_word`: the tokens of a line, one scan of the loop at a time;
* `parseLoop_spec`: up to six tokens end up in `argv`, and more are too many;
* **`handlecmd_right_iff`**: so a line of seven tokens is refused, though `argv` has room for it,
  and a blank line that is not empty ends the monitor.
-/

namespace SpringOs.Kmon
open Kernel Lib.Bytes

/-! ## The code -/

/-- The array `argv`, with room for the null pointer. -/
def maxargs : Nat := 8

/-- `strchr(WHITESPACE, c)` for a character that is not NUL. -/
def white (c : Byte) : Bool := c = 32 ∨ c = 9 ∨ c = 10 ∨ c = 13

/-- `while (*cmd && strchr(WHITESPACE, *cmd)) *(cmd++) = 0` -/
def blankLoop (done : List Byte) : List Byte → List Byte × List Byte
  | [] => (done, [])
  | c :: rest => if white c then blankLoop (done ++ [0]) rest else (done, c :: rest)

/-- `while (*cmd && !strchr(WHITESPACE, *cmd)) cmd++` -/
def wordLoop (done : List Byte) : List Byte → List Byte × List Byte
  | [] => (done, [])
  | c :: rest => if white c then (done, c :: rest) else wordLoop (done ++ [c]) rest

/-- `argv[argc] = p`, where `p` is a place in the line or the null pointer. -/
def storeArg (argv : List (Option Nat)) (p : Option Nat) : Except Fault (List (Option Nat)) :=
  if argv.length < maxargs then .ok (argv ++ [p]) else .error .outOfBounds

/-- The arguments, unless they are too many, and the line as it is then. -/
def parseLoop : Nat → List Byte → List Byte → List (Option Nat) →
    Except Fault (Option (List (Option Nat)) × List Byte)
  | 0, _, _, _ => .error .hang
  | fuel + 1, done, rest, argv =>
    if maxargs - 1 ≤ argv.length then .ok (none, done ++ rest)
    else
      match blankLoop done rest with
      | (done, []) => .ok (some argv, done)
      | (done, c :: rest) => do
        let argv ← storeArg argv (some done.length)
        let (done, rest) := wordLoop done (c :: rest)
        parseLoop fuel done rest argv

def strAt (mem : List Byte) (p : Nat) : List Byte := (mem.drop p).takeWhile (· ≠ 0)

inductive Cmd
  | bp
  | bl
  | bt
  | md
  | mdp
  | mm
  | mmB
  | ft
  | hwt
  | whereAmI
  | ss
  | go
  | regs
  | print
  | slab
  deriving DecidableEq, Repr

def allcmds : List (List Byte × Cmd) :=
  [([98, 112], .bp), ([98, 108], .bl), ([98, 116], .bt), ([109, 100], .md),
    ([109, 100, 112], .mdp), ([109, 109], .mm), ([109, 109, 66], .mmB), ([102, 116], .ft),
    ([104, 119, 116], .hwt), ([119, 104, 101, 114, 101], .whereAmI), ([115, 115], .ss),
    ([103, 111], .go), ([114, 101, 103, 115], .regs), ([112, 114, 105, 110, 116], .print),
    ([115, 108, 97, 98], .slab)]

/-- `argc` and the strings of `argv`. -/
abbrev Args := Nat × List (Option (List Byte))

/-- A command that is not found, or returns an error that is not serious, counts as done. -/
def runcmd (exec : Cmd → Args → Int) (args : Args) : Int :=
  if args.1 < 1 then -1
  else
    match allcmds.find? fun entry => args.2.head? = some (some entry.1) with
    | none => 0
    | some entry => if exec entry.2 args < 0 then -1 else 0

/-- The result, the line afterwards, and what `runcmd` was called with. -/
structure Handled where
  ret : Int
  line : List Byte
  call : Option Args

def handlecmd (exec : Cmd → Args → Int) (line : List Byte) : Except Fault Handled :=
  if line = [] then .ok ⟨0, [], none⟩
  else do
    match ← parseLoop (line.length + 1) [] line [] with
    | (none, mem) => return ⟨-1, mem, none⟩
    | (some argv, mem) =>
      let args : Args := (argv.length, (← storeArg argv none).map (Option.map (strAt mem)))
      return ⟨if runcmd exec args < 0 then -1 else 0, mem, some args⟩

/-! ## Tokens -/

/-- The maximal runs of characters that are not white. -/
def tokens (line : List Byte) : List (List Byte) := (line.splitOnP white).filter (· ≠ [])

/-- The line with its white characters overwritten. -/
def cut (line : List Byte) : List Byte := line.map fun c => if white c then 0 else c

theorem tokens_white {c : Byte} (hc : white c = true) (rest : List Byte) :
    tokens (c :: rest) = tokens rest := by
  have h := List.splitOnP_append_cons [] rest hc
  rw [List.nil_append, List.splitOnP_nil] at h
  rw [tokens, h]
  rfl

theorem tokens_word {t rest : List Byte} (hne : t ≠ []) (ht : ∀ c ∈ t, white c = false)
    (hrest : ∀ c ∈ rest.head?, white c = true) : tokens (t ++ rest) = t :: tokens rest := by
  have hone : List.splitOnP white t = [t] := List.splitOnP_eq_singleton ht
  cases rest with
  | nil =>
    rw [List.append_nil, tokens, hone, List.filter_cons_of_pos (by simpa using hne)]
    rfl
  | cons c rest =>
    have hc := hrest c rfl
    rw [tokens_white hc, tokens, List.splitOnP_append_cons t rest hc, hone, List.singleton_append,
      List.filter_cons_of_pos (by simpa using hne)]
    rfl

theorem tokens_dropWhile (rest : List Byte) : tokens (rest.dropWhile white) = tokens rest := by
  induction rest with
  | nil => rfl
  | cons c rest ih =>
    cases hc : white c with
    | true => rw [List.dropWhile_cons_of_pos hc, ih, tokens_white hc]
    | false => rw [List.dropWhile_cons_of_neg (by rw [hc]; decide)]

/-! ## The scans -/

theorem blankLoop_eq (done rest : List Byte) :
    blankLoop done rest = (done ++ cut (rest.takeWhile white), rest.dropWhile white) := by
  induction rest generalizing done with
  | nil => exact congrArg (·, []) (List.append_nil done).symm
  | cons c rest ih =>
    rw [blankLoop]
    split
    · rename_i hc
      rw [ih, List.takeWhile_cons_of_pos hc, List.dropWhile_cons_of_pos hc, cut, cut,
        List.map_cons, if_pos hc, List.append_assoc, List.singleton_append]
    · rename_i hc
      rw [List.takeWhile_cons_of_neg hc, List.dropWhile_cons_of_neg hc]
      exact congrArg (·, c :: rest) (List.append_nil done).symm

theorem wordLoop_eq (done rest : List Byte) :
    wordLoop done rest =
      (done ++ rest.takeWhile (fun c => !white c), rest.dropWhile fun c => !white c) := by
  induction rest generalizing done with
  | nil => exact congrArg (·, []) (List.append_nil done).symm
  | cons c rest ih =>
    rw [wordLoop]
    cases hc : white c with
    | true =>
      rw [if_pos rfl, List.takeWhile_cons_of_neg (by rw [hc]; decide),
        List.dropWhile_cons_of_neg (by rw [hc]; decide)]
      exact congrArg (·, c :: rest) (List.append_nil done).symm
    | false =>
      rw [if_neg (by decide), ih, List.takeWhile_cons_of_pos (by rw [hc]; rfl),
        List.dropWhile_cons_of_pos (by rw [hc]; rfl), List.append_assoc, List.singleton_append]

theorem cut_append (a b : List Byte) : cut (a ++ b) = cut a ++ cut b := List.map_append

theorem cut_word {t : List Byte} (ht : ∀ c ∈ t, white c = false) : cut t = t := by
  rw [cut]
  conv_rhs => rw [← List.map_id t]
  refine List.map_congr_left fun c hc => ?_
  rw [if_neg (by rw [ht c hc]; decide)]
  rfl

/-- A token ends at the first character that was overwritten, or with the line. -/
theorem strAt_word {done t rest : List Byte} (ht : ∀ c ∈ t, c ≠ 0)
    (hrest : ∀ c ∈ rest.head?, white c = true) :
    strAt (done ++ t ++ cut rest) done.length = t := by
  have hnul : ∀ c ∈ t, decide (c ≠ 0) = true := fun c hc => decide_eq_true (ht c hc)
  rw [strAt, List.append_assoc, List.drop_left, List.takeWhile_append_of_pos hnul]
  cases rest with
  | nil => exact List.append_nil t
  | cons c rest =>
    rw [cut, List.map_cons, if_pos (hrest c rfl), List.takeWhile_cons_of_neg (by decide),
      List.append_nil]

/-- The line begins, behind its blanks, with the token `t`. -/
structure Begins (line t rest : List Byte) : Prop where
  drop : line.dropWhile white = t ++ rest
  ne_nil : t ≠ []
  word : ∀ c ∈ t, white c = false
  stop : ∀ c ∈ rest.head?, white c = true

theorem line_parts (line : List Byte) :
    line.dropWhile white = [] ∨ ∃ t rest, Begins line t rest := by
  cases hdrop : line.dropWhile white with
  | nil => exact .inl rfl
  | cons c word =>
    have hc := List.head?_dropWhile_not white line
    have hend := List.head?_dropWhile_not (fun c => !white c) (c :: word)
    rw [hdrop] at hc
    have hpos : (!white c) = true := by rw [show white c = false from hc]; rfl
    refine .inr ⟨(c :: word).takeWhile fun c => !white c, (c :: word).dropWhile fun c => !white c,
      hdrop.trans List.takeWhile_append_dropWhile.symm, ?_, fun d hd => ?_, fun d hd => ?_⟩
    · rw [List.takeWhile_cons_of_pos (p := fun c => !white c) hpos]
      exact List.cons_ne_nil _ _
    · simpa using List.all_eq_true.mp List.all_takeWhile d hd
    · rw [Option.mem_def.mp hd] at hend
      simpa using hend

section
variable {line t rest : List Byte}

theorem Begins.split (h : Begins line t rest) : line.takeWhile white ++ (t ++ rest) = line := by
  rw [← h.drop, List.takeWhile_append_dropWhile]

theorem Begins.tokens_eq (h : Begins line t rest) : tokens line = t :: tokens rest := by
  rw [← tokens_dropWhile, h.drop, tokens_word h.ne_nil h.word h.stop]

theorem Begins.cut_eq (h : Begins line t rest) :
    cut line = cut (line.takeWhile white) ++ t ++ cut rest := by
  conv_lhs => rw [← h.split, cut_append, cut_append, cut_word h.word]
  rw [List.append_assoc]

theorem Begins.length_lt (h : Begins line t rest) : rest.length < line.length := by
  have hlen := congrArg List.length h.split
  have hpos := List.length_pos_iff.mpr h.ne_nil
  rw [List.length_append, List.length_append] at hlen
  omega

theorem Begins.no_nul (h : Begins line t rest) (hline : 0 ∉ line) :
    0 ∉ rest ∧ ∀ c ∈ t, c ≠ 0 := by
  rw [← h.split, List.mem_append, List.mem_append] at hline
  exact ⟨fun hmem => hline (.inr (.inr hmem)), fun c hc heq => hline (.inr (.inl (heq ▸ hc)))⟩

end

variable {fuel : Nat} {line : List Byte}

/-- One round of the loop: the token it finds, and the line it goes on with. -/
theorem parseLoop_step {done t rest : List Byte} {argv : List (Option Nat)}
    (hroom : argv.length < 7) (h : Begins line t rest) :
    parseLoop (fuel + 1) done line argv =
      parseLoop fuel (done ++ cut (line.takeWhile white) ++ t) rest
        (argv ++ [some (done ++ cut (line.takeWhile white)).length]) := by
  have hword : (t ++ rest).takeWhile (fun c => !white c) = t ∧
      (t ++ rest).dropWhile (fun c => !white c) = rest := by
    have hpos : ∀ c ∈ t, (!white c) = true := fun c hc => by rw [h.word c hc]; rfl
    rw [List.takeWhile_append_of_pos hpos, List.dropWhile_append_of_pos hpos]
    cases rest with
    | nil => exact ⟨List.append_nil t, rfl⟩
    | cons c rest =>
      have hc : ¬ (!white c) = true := by rw [h.stop c rfl]; decide
      rw [List.takeWhile_cons_of_neg (p := fun c => !white c) hc,
        List.dropWhile_cons_of_neg (p := fun c => !white c) hc]
      exact ⟨List.append_nil t, rfl⟩
  obtain ⟨c, word, hcons⟩ :=
    List.exists_cons_of_ne_nil (List.append_ne_nil_of_left_ne_nil h.ne_nil rest)
  rw [parseLoop, if_neg (show ¬ maxargs - 1 ≤ argv.length from Nat.not_le.mpr hroom),
    blankLoop_eq, h.drop, hcons]
  dsimp only
  rw [← hcons, wordLoop_eq, hword.1, hword.2, storeArg,
    if_pos (show argv.length < maxargs from Nat.lt_succ_of_lt hroom)]
  rfl

theorem parseLoop_end {done : List Byte} {argv : List (Option Nat)} (hroom : argv.length < 7)
    (h : line.dropWhile white = []) :
    parseLoop (fuel + 1) done line argv = .ok (some argv, done ++ cut line) := by
  have hblank : line.takeWhile white = line := by
    have hsplit := List.takeWhile_append_dropWhile (p := white) (l := line)
    rwa [h, List.append_nil] at hsplit
  rw [parseLoop, if_neg (show ¬ maxargs - 1 ≤ argv.length from Nat.not_le.mpr hroom),
    blankLoop_eq, h, hblank]

theorem parseLoop_spec (hfuel : line.length < fuel) (hline : 0 ∉ line) (done : List Byte)
    (argv : List (Option Nat)) :
    if argv.length + (tokens line).length < 7 then
      ∃ ptrs : List Nat,
        parseLoop fuel done line argv = .ok (some (argv ++ ptrs.map some), done ++ cut line) ∧
        ptrs.map (strAt (done ++ cut line)) = tokens line
    else ∃ mem, parseLoop fuel done line argv = .ok (none, mem) := by
  induction fuel generalizing line done argv with
  | zero => exact absurd hfuel (Nat.not_lt_zero _)
  | succ fuel ih =>
    by_cases hfull : 7 ≤ argv.length
    · rw [parseLoop, if_neg (by omega), if_pos (show maxargs - 1 ≤ argv.length from hfull)]
      exact ⟨done ++ line, rfl⟩
    · have hroom : argv.length < 7 := Nat.lt_of_not_le hfull
      rcases line_parts line with hend | ⟨t, rest, h⟩
      · have hnone : tokens line = [] := by
          rw [← tokens_dropWhile, hend]
          rfl
        rw [parseLoop_end hroom hend, hnone, List.length_nil, Nat.add_zero, if_pos hroom]
        exact ⟨[], congrArg (fun a => Except.ok (some a, _)) (List.append_nil argv).symm, rfl⟩
      · obtain ⟨hrest, ht⟩ := h.no_nul hline
        have hshort : rest.length < fuel := Nat.lt_of_lt_of_le h.length_lt (Nat.le_of_lt_succ hfuel)
        have hgo := ih hshort hrest (done ++ cut (line.takeWhile white) ++ t)
          (argv ++ [some (done ++ cut (line.takeWhile white)).length])
        rw [List.length_append, List.length_singleton, Nat.add_assoc, Nat.add_comm 1] at hgo
        rw [parseLoop_step hroom h, h.cut_eq, h.tokens_eq, List.length_cons]
        simp only [← List.append_assoc]
        split
        · rename_i hfew
          rw [if_pos hfew] at hgo
          obtain ⟨ptrs, hrun, hstrs⟩ := hgo
          refine ⟨(done ++ cut (line.takeWhile white)).length :: ptrs, ?_, ?_⟩
          · rw [hrun, List.append_assoc argv]
            rfl
          · rw [List.map_cons, hstrs, strAt_word ht h.stop]
        · rename_i hmany
          rw [if_neg hmany] at hgo
          exact hgo

/-! ## The command line -/

/-- What `runcmd` is called with. -/
def argsOf (line : List Byte) : Args := ((tokens line).length, (tokens line).map some ++ [none])

theorem handlecmd_few (exec : Cmd → Args → Int) (hline : 0 ∉ line) (hne : line ≠ [])
    (hfew : (tokens line).length < 7) :
    handlecmd exec line =
      .ok ⟨if runcmd exec (argsOf line) < 0 then -1 else 0, cut line, some (argsOf line)⟩ := by
  have hspec := parseLoop_spec (Nat.lt_succ_self line.length) hline [] []
  rw [List.length_nil, Nat.zero_add, if_pos hfew] at hspec
  obtain ⟨ptrs, hrun, hstrs⟩ := hspec
  rw [List.nil_append, List.nil_append] at hrun
  rw [List.nil_append] at hstrs
  have hlen : (ptrs.map some).length = (tokens line).length := by
    rw [List.length_map, ← hstrs, List.length_map]
  have hargs : ((ptrs.map some).length,
      (ptrs.map some ++ [none]).map (Option.map (strAt (cut line)))) = argsOf line := by
    rw [hlen, argsOf, List.map_append, List.map_map, ← hstrs, List.map_map]
    rfl
  rw [handlecmd, if_neg hne, hrun, ← hargs]
  have hstore : storeArg (ptrs.map some) none = .ok (ptrs.map some ++ [none]) :=
    if_pos (show (ptrs.map some).length < maxargs by rw [hlen]; exact Nat.lt_succ_of_lt hfew)
  show (storeArg (ptrs.map some) none >>= _) = _
  rw [hstore]
  rfl

theorem handlecmd_many (exec : Cmd → Args → Int) (hline : 0 ∉ line)
    (hmany : 7 ≤ (tokens line).length) : ∃ mem, handlecmd exec line = .ok ⟨-1, mem, none⟩ := by
  have hne : line ≠ [] := by
    rintro rfl
    exact absurd hmany (by decide)
  have hspec := parseLoop_spec (Nat.lt_succ_self line.length) hline [] []
  rw [List.length_nil, Nat.zero_add, if_neg (Nat.not_lt.mpr hmany)] at hspec
  obtain ⟨mem, hrun⟩ := hspec
  refine ⟨mem, ?_⟩
  rw [handlecmd, if_neg hne, hrun]
  rfl

/-- The tokens of the line are run as a command, nothing is run when there are none, and too many
are refused. -/
def Handled.Right (line : List Byte) (h : Handled) : Prop :=
  if (tokens line).length = 0 then h.ret = 0 ∧ h.call = none
  else if (tokens line).length ≤ maxargs - 1 then h.call = some (argsOf line)
  else h.ret = -1 ∧ h.call = none

theorem not_right_of_seven {mem : List Byte} (hseven : (tokens line).length = 7) :
    ¬ Handled.Right line ⟨-1, mem, none⟩ := by
  rw [Handled.Right, hseven, if_neg (by decide), if_pos (by decide)]
  intro h
  cases h

/-- The limit is tested before the end of the line, so seven tokens are already too many; and a
blank line is only noticed when it is empty. -/
theorem handlecmd_right_iff (exec : Cmd → Args → Int) {line : List Byte} (hline : 0 ∉ line) :
    (∃ h, handlecmd exec line = .ok h ∧ h.Right line) ↔
      line = [] ∨ 1 ≤ (tokens line).length ∧ (tokens line).length ≠ maxargs - 1 := by
  by_cases hne : line = []
  · subst hne
    exact ⟨fun _ => .inl rfl, fun _ => ⟨⟨0, [], none⟩, rfl, rfl, rfl⟩⟩
  have hseven : maxargs - 1 = 7 := rfl
  rw [or_iff_right hne, hseven]
  rcases Nat.lt_or_ge (tokens line).length 7 with hfew | hmany
  · rw [handlecmd_few exec hline hne hfew]
    constructor
    · rintro ⟨h, hrun, hright⟩
      cases hrun
      refine ⟨Nat.pos_of_ne_zero fun hzero => ?_, Nat.ne_of_lt hfew⟩
      rw [Handled.Right, if_pos hzero] at hright
      cases hright.2
    · rintro ⟨hsome, -⟩
      refine ⟨_, rfl, ?_⟩
      rw [Handled.Right, if_neg (Nat.ne_of_gt hsome), hseven, if_pos (Nat.le_of_lt hfew)]
  · obtain ⟨mem, hrun⟩ := handlecmd_many exec hline hmany
    rw [hrun]
    constructor
    · rintro ⟨h, hrun, hright⟩
      cases hrun
      exact ⟨by omega, fun h => not_right_of_seven h hright⟩
    · rintro ⟨-, hnot⟩
      refine ⟨_, rfl, ?_⟩
      rw [Handled.Right, if_neg (by omega), hseven, if_neg (by omega)]
      exact ⟨rfl, rfl⟩

/-- `md 0 `, two tokens and a blank behind them. -/
theorem handlecmd_right_md :
    ∃ h, handlecmd (fun _ _ => 0) [109, 100, 32, 48, 32] = .ok h ∧
      h.Right [109, 100, 32, 48, 32] :=
  (handlecmd_right_iff (fun _ _ => 0) (by decide)).mpr (.inr (by decide))

/-- Seven tokens are refused, and a line of one blank ends the monitor. -/
theorem handlecmd_refuses :
    (∃ h, handlecmd (fun _ _ => 0) [97, 32, 97, 32, 97, 32, 97, 32, 97, 32, 97, 32, 97] = .ok h ∧
      h.ret = -1 ∧ h.call = none) ∧
    ∃ h, handlecmd (fun _ _ => 0) [32] = .ok h ∧ h.ret = -1 ∧ h.call = some (0, [none]) :=
  ⟨⟨_, rfl, rfl, rfl⟩, ⟨_, rfl, rfl, rfl⟩⟩

end SpringOs.Kmon
