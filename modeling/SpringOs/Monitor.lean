import SpringOs.Kmon
import SpringOs.LineSessions

/-!
The loop of the kernel monitor: `readkey`, `readline` (`kmon/readline.c`) and `cmdloop`
(`kmon/kmon.c`), from what the UART receives to the command that is run.

`readline` returns `linestr`, which only Enter writes and in which `handlecmd` cuts the tokens
apart. So a call that Ctrl-C or an unknown key ends returns the command of the last line entered.

* `readkey_code`: the codes `readkey` returns;
* `readlineLoop_spec`: what a call of `readline` leaves behind;
* `called_ready`: between two calls `linestr` is the command of the last line entered;
* `Beside`: the editor beside an ideal one, for which `Home` and the like are no characters;
* **`readline_returns_right`**: what a call returns is right when no such key was pressed since the
  line was empty or recalled, else wrong but for Backspace at the start of the line; and when the
  line is given up, exactly when no command is left in `linestr`.
-/

namespace SpringOs.Kmon
open Kernel Lib.Bytes Lib.Machine Readline

/-! ## Keys -/

def keyEscape : Nat := 0x1b
def delKey : Nat := 1004
def homeKey : Nat := 1005
def endKey : Nat := 1006
def pageUp : Nat := 1007
def pageDown : Nat := 1008

/-- `uart_getc` waits for a byte, and `getch` takes a NUL for the end of the input. -/
def getch : List Byte → Option (Option Byte × List Byte)
  | [] => none
  | c :: input => some (if c = 0 then none else some c, input)

/-- `ESC [ c ~` -/
def tildeKey (c : Byte) : Nat :=
  if c = 49 then homeKey
  else if c = 51 then delKey
  else if c = 52 then endKey
  else if c = 53 then pageUp
  else if c = 54 then pageDown
  else if c = 55 then homeKey
  else if c = 56 then endKey
  else keyEscape

/-- `ESC [ c` -/
def bracketKey (c : Byte) : Nat :=
  if c = 65 then arrowUp
  else if c = 66 then arrowDown
  else if c = 67 then arrowRight
  else if c = 68 then arrowLeft
  else if c = 72 then homeKey
  else if c = 70 then endKey
  else keyEscape

/-- `ESC O c` -/
def letterKey (c : Byte) : Nat :=
  if c = 72 then homeKey
  else if c = 70 then endKey
  else keyEscape

/-- `ESC [ 0` to `ESC [ 9` -/
def readDigit (seq1 : Byte) (input : List Byte) : Option (Nat × List Byte) := do
  match ← getch input with
  | (none, input) => return (keyEscape, input)
  | (some seq2, input) => return (if seq2 = 126 then tildeKey seq1 else keyEscape, input)

/-- Behind `ESC`. -/
def readSeq (input : List Byte) : Option (Nat × List Byte) := do
  match ← getch input with
  | (none, input) => return (keyEscape, input)
  | (some seq0, input) =>
    match ← getch input with
    | (none, input) => return (keyEscape, input)
    | (some seq1, input) =>
      if seq0 = 91 then
        if 48 ≤ seq1 ∧ seq1 ≤ 57 then readDigit seq1 input
        else return (bracketKey seq1, input)
      else if seq0 = 79 then return (letterKey seq1, input)
      else return (keyEscape, input)

/-- A code, and the input that is left. What `getch` does not write keeps the value it has. -/
def readkey (junk : Byte) (input : List Byte) : Option (Nat × List Byte) := do
  let (c, input) ← getch input
  let c := (c.getD junk).toNat
  if c = keyEscape then readSeq input else return (c, input)

/-- The codes of the keys that are typed by some bytes. -/
inductive Typed : List Byte → List Nat → Prop
  | nil : Typed [] []
  | key (junk : Byte) {input rest : List Byte} {c : Nat} {codes : List Nat} :
      readkey junk input = some (c, rest) → Typed rest codes → Typed input (c :: codes)

/-- A byte, or one of the keys that have a code of their own. -/
def KeyCode (c : Nat) : Prop := c < 256 ∨ arrowLeft ≤ c ∧ c ≤ pageDown

instance : DecidablePred KeyCode := fun _ => inferInstanceAs (Decidable (_ ∨ _))

theorem KeyCode.ite {p : Prop} [Decidable p] {a b : Nat} (ha : KeyCode a) (hb : KeyCode b) :
    KeyCode (if p then a else b) := by
  split
  · exact ha
  · exact hb

theorem tildeKey_code (c : Byte) : KeyCode (tildeKey c) := by
  unfold tildeKey
  repeat' apply KeyCode.ite
  all_goals decide

theorem bracketKey_code (c : Byte) : KeyCode (bracketKey c) := by
  unfold bracketKey
  repeat' apply KeyCode.ite
  all_goals decide

theorem letterKey_code (c : Byte) : KeyCode (letterKey c) := by
  unfold letterKey
  repeat' apply KeyCode.ite
  all_goals decide

theorem keyEscape_code : KeyCode keyEscape := by decide

variable {input rest : List Byte} {c : Nat}

theorem readDigit_code {seq1 : Byte} (h : readDigit seq1 input = some (c, rest)) : KeyCode c := by
  obtain ⟨⟨seq2, input⟩, -, h⟩ := Option.bind_eq_some_iff.mp h
  cases seq2 with
  | none =>
    cases h
    exact keyEscape_code
  | some seq2 =>
    cases h
    split
    · exact tildeKey_code seq1
    · exact keyEscape_code

theorem readSeq_code (h : readSeq input = some (c, rest)) : KeyCode c := by
  obtain ⟨⟨seq0, input⟩, -, h⟩ := Option.bind_eq_some_iff.mp h
  cases seq0 with
  | none =>
    cases h
    exact keyEscape_code
  | some seq0 =>
    obtain ⟨⟨seq1, input⟩, -, h⟩ := Option.bind_eq_some_iff.mp h
    cases seq1 with
    | none =>
      cases h
      exact keyEscape_code
    | some seq1 =>
      dsimp only at h
      split_ifs at h
      · exact readDigit_code h
      · cases h
        exact bracketKey_code seq1
      · cases h
        exact letterKey_code seq1
      · cases h
        exact keyEscape_code

theorem readkey_code {junk : Byte} (h : readkey junk input = some (c, rest)) : KeyCode c := by
  obtain ⟨⟨first, input⟩, -, h⟩ := Option.bind_eq_some_iff.mp h
  dsimp only at h
  split_ifs at h
  · exact readSeq_code h
  · cases h
    exact .inl (BitVec.isLt _)

theorem Typed.code {codes : List Nat} (h : Typed input codes) : ∀ c ∈ codes, KeyCode c := by
  induction h with
  | nil => exact nofun
  | key _ hkey _ ih =>
    rintro c (_ | ⟨_, hc⟩)
    · exact readkey_code hkey
    · exact ih c hc

/-! ## The loops -/

/-- A call of `readline` on the keys that are pressed, and the keys it leaves. -/
def readlineLoop : State → List Nat → Except Fault (State × List Nat)
  | _, [] => .error .hang
  | s, c :: codes => do
    match ← readlineKey s c with
    | (s, true) => readlineLoop s codes
    | (s, false) => return (s, codes)

def readline (prompt : List Byte) (s : State) (codes : List Nat) :
    Except Fault (State × List Nat) := do
  let (s, codes) ← readlineLoop (← readlineStart prompt s) codes
  return ({ s with ed.lb := linebufClear s.ed.lb }, codes)

/-- The string at `linestr`. -/
def cstr (linestr : List Byte) : List Byte := linestr.takeWhile (· ≠ 0)

/-- One turn of `cmdloop`, which is left when a command fails. -/
def cmdloopTurn (exec : Cmd → Args → Int) (s : State) (codes : List Nat) :
    Except Fault (Option State × List Nat) := do
  let (s, codes) ← readline kmonPrompt.text s codes
  let h ← handlecmd exec (cstr s.linestr)
  if h.ret < 0 then return (none, codes)
  else return (some { s with linestr := h.line ++ s.linestr.drop h.line.length }, codes)

/-- The monitor calls `readline`, whatever was typed and whatever the commands returned before. -/
inductive Called : State → Prop
  | boot : Called boot
  | next (exec : Cmd → Args → Int) {s s' : State} {input : List Byte} {codes : List Nat} :
      Called s → Typed input codes → cmdloopTurn exec s codes = .ok (some s', []) → Called s'

/-! ## Texts without a NUL -/

theorem cstr_clean {t : List Byte} (h : ∀ b ∈ t, b ≠ 0) : cstr t = t :=
  List.takeWhile_eq_self_iff.2 fun b hb => decide_eq_true (h b hb)

theorem ite_ne {p : Prop} [Decidable p] {a b x : Action} (ha : p → a ≠ x) (hb : b ≠ x) :
    (if p then a else b) ≠ x := by
  split
  · rename_i hp
    exact ha hp
  · exact hb

theorem action_ne_nul (h : KeyCode c) : ∀ b, action c = .insert b → b ≠ 0 := by
  rintro _ hb rfl
  revert hb
  change action c ≠ .insert 0
  have hinsert : 32 ≤ c → Action.insert (.ofNat 8 c) ≠ .insert 0 := by
    intro hlow heq
    have hmod : c % 256 = 0 := congrArg BitVec.toNat (Action.insert.inj heq)
    rw [KeyCode, arrowLeft, pageDown] at h
    omega
  unfold action
  refine ite_ne ?_ (ite_ne ?_ (ite_ne ?_ (ite_ne ?_ (ite_ne ?_ (ite_ne ?_ (ite_ne ?_ (ite_ne ?_
    (ite_ne hinsert (by decide)))))))))
  all_goals exact fun _ => by decide

section
variable {e : Ideal}

/-- Only a line that is entered changes the lines of the history. -/
theorem act_lines {a : Action} (ha : a ≠ .enter) : (e.act a).hist.lines = e.hist.lines := by
  have hrecall : ∀ recalled, Recalls e.hist recalled →
      (e.recall recalled).hist.lines = e.hist.lines := by
    rintro ⟨record, hist⟩ hrec
    cases record with
    | none => exact hrec.1
    | some record => exact hrec.1
  cases a with
  | enter => exact absurd rfl ha
  | up => exact hrecall _ (linerecordPrev_recalls e.hist)
  | down => exact hrecall _ (linerecordNext_recalls e.hist)
  | _ => rfl

theorem keys_clean (h : Clean (· ≠ 0) e) {codes : List Nat} (hcodes : ∀ c ∈ codes, KeyCode c) :
    Clean (· ≠ 0) (codes.foldl (fun e c => e.act (action c)) e) := by
  induction codes generalizing e with
  | nil => exact h
  | cons c codes ih =>
    exact ih (act_clean h (action_ne_nul (hcodes c List.mem_cons_self)))
      fun d hd => hcodes d (List.mem_cons_of_mem c hd)

theorem keys_lines {codes : List Nat} (hon : ∀ c ∈ codes, (action c).goesOn = true) :
    (codes.foldl (fun e c => e.act (action c)) e).hist.lines = e.hist.lines := by
  induction codes generalizing e with
  | nil => rfl
  | cons c codes ih =>
    have hstep : (e.act (action c)).hist.lines = e.hist.lines := by
      refine act_lines fun henter => ?_
      have hc := hon c List.mem_cons_self
      rw [henter] at hc
      cases hc
    exact (ih fun d hd => hon d (List.mem_cons_of_mem c hd)).trans hstep

end

/-! ## One call -/

/-- The ideal line after some keys, from the history a call of `readline` finds. -/
def typed (hist : History) (codes : List Nat) : Ideal :=
  codes.foldl (fun e c => e.act (action c)) ⟨Line.whole [], hist⟩

theorem readlineLoop_spec {prompt : List Byte} {e : Ideal} {s s' : State} {codes : List Nat}
    (h : Tracks False prompt e s) (hrun : readlineLoop s codes = .ok (s', [])) :
    ∃ init last, codes = init ++ [last] ∧ (∀ c ∈ init, (action c).goesOn = true) ∧
      After False prompt (init.foldl (fun e c => e.act (action c)) e) s (action last)
        (s', false) := by
  induction codes generalizing e s with
  | nil => cases hrun
  | cons c codes ih =>
    obtain ⟨⟨s1, on⟩, hkey, hrest⟩ := ok_of_bind hrun
    have hafter := (key_exactly h (c := c) False.elim).result hkey
    cases on with
    | false =>
      cases hrest
      exact ⟨[], c, rfl, nofun, hafter⟩
    | true =>
      have hon : (action c).goesOn = true := hafter.goesOn.symm
      obtain ⟨init, last, rfl, hinit, hlast⟩ := ih ⟨hafter.keeps hon, hafter.hist, False.elim⟩ hrest
      have hstr : s1.linestr = s.linestr := by
        refine hafter.linestr.trans (if_neg fun henter => ?_)
        rw [henter] at hon
        cases hon
      refine ⟨c :: init, last, rfl, ?_, hlast.goesOn, hlast.hist, ?_, hlast.lsize, hlast.rsize,
        hlast.keeps⟩
      · rintro d (_ | ⟨_, hd⟩)
        · exact hon
        · exact hinit d hd
      · rw [← hstr]
        exact hlast.linestr

theorem readline_spec {s s' : State} {codes : List Nat} (hl : s.ed.lb.lbuf.size = 128)
    (hr : s.ed.lb.rbuf.size = 128) (hrun : readline kmonPrompt.text s codes = .ok (s', [])) :
    ∃ init last, codes = init ++ [last] ∧ (∀ c ∈ init, (action c).goesOn = true) ∧
      After False kmonPrompt.text (typed s.hist init) s (action last) (s', false) := by
  obtain ⟨ed, hstart, hkeeps⟩ := readlineStart_keeps kmonPrompt hl hr
  obtain ⟨s0, hstart', hrun⟩ := ok_of_bind hrun
  rw [hstart] at hstart'
  cases hstart'
  obtain ⟨⟨s1, rest⟩, hloop, hend⟩ := ok_of_bind hrun
  cases hend
  have htracks : Tracks False kmonPrompt.text ⟨Line.whole [], s.hist⟩ { s with ed } :=
    ⟨hkeeps, rfl, False.elim⟩
  obtain ⟨init, last, hcodes, hinit, hlast⟩ := readlineLoop_spec htracks hloop
  refine ⟨init, last, hcodes, hinit, hlast.goesOn, hlast.hist, hlast.linestr, hlast.lsize,
    hlast.rsize, fun hon => ?_⟩
  rw [← hlast.goesOn] at hon
  cases hon

/-! ## Between two calls -/

def lastLine (hist : History) : List Byte := hist.lines.getLast?.getD []

/-- What `handlecmd` leaves of a line in front of the first NUL. -/
def command (line : List Byte) : List Byte := line.takeWhile fun c => !white c

structure Ready (s : State) : Prop where
  lsize : s.ed.lb.lbuf.size = 128
  rsize : s.ed.lb.rbuf.size = 128
  records : ∀ record ∈ s.hist.lines, ∀ b ∈ record, b ≠ 0
  linestr : cstr s.linestr = command (lastLine s.hist)

theorem lastLine_add (hist : History) {t : List Byte} (ht : ∀ b ∈ t, b ≠ 0) :
    lastLine (linerecordAdd hist t) = t := by
  have hlast : (linerecordAdd hist t).lines.getLast? = some (cstr t) := List.getLast?_concat
  rw [lastLine, hlast, cstr_clean ht]
  rfl

theorem command_idem (line : List Byte) : command (command line) = command line :=
  List.takeWhile_idem

theorem cstr_cut (linestr : List Byte) :
    cstr (cut (cstr linestr) ++ linestr.drop (cut (cstr linestr)).length) =
      command (cstr linestr) := by
  induction linestr with
  | nil => rfl
  | cons c linestr ih =>
    by_cases hc : c = 0
    · subst hc
      rfl
    · have hcons : ∀ rest, cstr (c :: rest) = c :: cstr rest :=
        fun rest => List.takeWhile_cons_of_pos (decide_eq_true hc)
      rw [hcons]
      cases hw : white c with
      | true =>
        have hcut : cut (c :: cstr linestr) = 0 :: cut (cstr linestr) := by
          rw [cut, List.map_cons, if_pos hw]
          rfl
        rw [hcut, command, List.takeWhile_cons_of_neg (by rw [hw]; decide)]
        rfl
      | false =>
        have hcut : cut (c :: cstr linestr) = c :: cut (cstr linestr) := by
          rw [cut, List.map_cons, if_neg (by rw [hw]; decide)]
          rfl
        rw [hcut, List.length_cons, List.drop_succ_cons, List.cons_append, hcons, ih, command,
          command, List.takeWhile_cons_of_pos (by rw [hw]; rfl)]

theorem handlecmd_line {exec : Cmd → Args → Int} {line : List Byte} (hline : 0 ∉ line)
    {h : Handled} (hrun : handlecmd exec line = .ok h) (hret : ¬ h.ret < 0) :
    h.line = cut line := by
  by_cases hne : line = []
  · subst hne
    cases hrun
    rfl
  · rcases Nat.lt_or_ge (tokens line).length 7 with hfew | hmany
    · rw [handlecmd_few exec hline hne hfew] at hrun
      cases hrun
      rfl
    · obtain ⟨mem, hrefused⟩ := handlecmd_many exec hline hmany
      rw [hrefused] at hrun
      cases hrun
      exact absurd (show (-1 : Int) < 0 by decide) hret

section
variable {s s' : State} {input : List Byte} {codes : List Nat}

def Entered (codes : List Nat) : Prop := codes.getLast?.map action = some .enter

instance : DecidablePred Entered := fun _ => inferInstanceAs (Decidable (_ = _))

theorem entered_append (init : List Nat) (last : Nat) :
    Entered (init ++ [last]) ↔ action last = .enter := by
  rw [Entered, List.getLast?_concat, Option.map_some, Option.some_inj]

section

variable (h : Ready s) (hcodes : ∀ c ∈ codes, KeyCode c)
include h hcodes

theorem typed_clean : Clean (· ≠ 0) (typed s.hist codes) :=
  keys_clean ⟨List.forall_mem_nil _, h.records⟩ hcodes

/-- The line entered, or the command of the last one. -/
theorem readline_returns (hrun : readline kmonPrompt.text s codes = .ok (s', [])) :
    cstr s'.linestr =
      if Entered codes then (typed s.hist codes.dropLast).line.text
      else command (lastLine s.hist) := by
  obtain ⟨init, last, rfl, -, hafter⟩ := readline_spec h.lsize h.rsize hrun
  have hclean := typed_clean h fun c hc => hcodes c (List.mem_append_left [last] hc)
  rw [hafter.linestr, List.dropLast_concat]
  by_cases henter : action last = .enter
  · rw [if_pos henter, if_pos ((entered_append init last).mpr henter), cstr_clean hclean.text]
  · rw [if_neg henter, if_neg (mt (entered_append init last).mp henter), h.linestr]

theorem readline_ready (hrun : readline kmonPrompt.text s codes = .ok (s', [])) :
    (∀ record ∈ s'.hist.lines, ∀ b ∈ record, b ≠ 0) ∧
      command (cstr s'.linestr) = command (lastLine s'.hist) := by
  have hreturns := readline_returns h hcodes hrun
  obtain ⟨init, last, rfl, hinit, hafter⟩ := readline_spec h.lsize h.rsize hrun
  have hclean := typed_clean h fun c hc => hcodes c (List.mem_append_left [last] hc)
  have hlast := action_ne_nul (hcodes last (List.mem_append_right init List.mem_cons_self))
  have hhist : s'.hist = _ := hafter.hist
  refine ⟨by rw [hhist]; exact (act_clean hclean hlast).records, ?_⟩
  rw [hreturns, List.dropLast_concat, hhist]
  by_cases henter : action last = .enter
  · rw [if_pos ((entered_append init last).mpr henter), henter]
    exact congrArg command (lastLine_add _ hclean.text).symm
  · have hlines := (act_lines henter).trans (keys_lines (e := ⟨Line.whole [], s.hist⟩) hinit)
    rw [if_neg (mt (entered_append init last).mp henter), command_idem, lastLine, lastLine]
    exact congrArg (fun lines => command (lines.getLast?.getD [])) hlines.symm

theorem turn_ready {exec : Cmd → Args → Int} (hrun : cmdloopTurn exec s codes = .ok (some s', [])) :
    Ready s' := by
  obtain ⟨⟨s1, rest⟩, hread, hrun⟩ := ok_of_bind hrun
  obtain ⟨handled, hcmd, hrun⟩ := ok_of_bind hrun
  split at hrun
  · cases hrun
  · rename_i hret
    cases hrun
    obtain ⟨hrecords, hcommand⟩ := readline_ready h hcodes hread
    obtain ⟨_, _, _, _, hafter⟩ := readline_spec h.lsize h.rsize hread
    have hnul : 0 ∉ cstr s1.linestr := fun hmem => by
      simpa using List.all_eq_true.mp List.all_takeWhile 0 hmem
    refine ⟨hafter.lsize, hafter.rsize, hrecords, ?_⟩
    rw [handlecmd_line hnul hcmd hret, cstr_cut, hcommand]

end

theorem called_ready (h : Called s) : Ready s := by
  induction h with
  | boot => exact ⟨rfl, rfl, nofun, rfl⟩
  | next _ _ hkeys hrun ih => exact turn_ready ih hkeys.code hrun

end

/-! ## What a call returns -/

/-- `Home`, `End`, `Delete`, `Page-Up` and `Page-Down`. -/
def extended (c : Nat) : Bool := delKey ≤ c ∧ c ≤ pageDown

/-- The line an ideal editor holds, for which the extended keys are no characters; and nothing to
run when the line is given up. -/
def ReturnsRight (hist : History) (codes : List Nat) (line : List Byte) : Prop :=
  if Entered codes then
    line = (typed hist (codes.dropLast.filter fun c => !extended c)).line.text
  else line = [] ∧ ∀ exec, ∃ h, handlecmd exec line = .ok h ∧ h.call = none

/-- What the extended keys have done to the line since it was empty or recalled: nothing, or their
characters made it longer, or Backspace at the start of the line has made up for some. -/
inductive Effect
  | none
  | longer
  | mixed
  deriving DecidableEq, Repr

/-- The effect after one more key, where an ideal editor holds `e`. -/
def Effect.after (x : Effect) (e : Ideal) (c : Nat) : Effect :=
  if extended c then if x = .none then .longer else x
  else match action c with
    | .up => if (linerecordPrev e.hist).1.isSome then .none else x
    | .down => if (linerecordNext e.hist).1.isSome then .none else x
    | .del => if x = .longer ∧ e.line.cursor = 0 then .mixed else x
    | _ => x

def watch (w : Ideal × Effect) (c : Nat) : Ideal × Effect :=
  (if extended c then w.1 else w.1.act (action c), w.2.after w.1 c)

def effect (hist : History) (codes : List Nat) : Effect :=
  (codes.foldl watch (⟨Line.whole [], hist⟩, .none)).2

/-- No extended key since the line was empty or recalled; and the last line entered was empty or
began with a blank. -/
def Harmless (hist : History) (codes : List Nat) : Prop :=
  if Entered codes then effect hist codes.dropLast = .none else command (lastLine hist) = []

instance (hist : History) (codes : List Nat) : Decidable (Harmless hist codes) :=
  inferInstanceAs (Decidable (if Entered codes then effect hist codes.dropLast = .none
    else command (lastLine hist) = []))

theorem foldl_watch (e : Ideal) (x : Effect) (codes : List Nat) :
    (codes.foldl watch (e, x)).1 =
      (codes.filter fun c => !extended c).foldl (fun e c => e.act (action c)) e := by
  induction codes generalizing e x with
  | nil => rfl
  | cons c codes ih =>
    rw [List.foldl_cons, watch, ih]
    cases hc : extended c with
    | true => rw [List.filter_cons_of_neg (by rw [hc]; decide), if_pos rfl]
    | false => rw [List.filter_cons_of_pos (by rw [hc]; rfl), List.foldl_cons, if_neg nofun]

theorem action_extended {c : Nat} (h : extended c = true) : action c = .insert (.ofNat 8 c) := by
  obtain ⟨hlow, hhigh⟩ := of_decide_eq_true h
  rw [delKey] at hlow
  rw [action, if_neg (by omega), if_neg (by omega), if_neg (by rw [arrowLeft]; omega),
    if_neg (by rw [arrowRight]; omega), if_neg (by rw [arrowUp]; omega),
    if_neg (by rw [arrowDown]; omega), if_neg (by omega), if_neg (by omega), if_pos (by omega)]

/-- The line has more characters than the ideal one, with no fewer on either side of the cursor. -/
structure Longer (ideal l : Line) : Prop where
  cursor : ideal.cursor ≤ l.cursor
  rest : ideal.text.length - ideal.cursor ≤ l.text.length - l.cursor
  length : ideal.text.length < l.text.length

section
variable {l m : Line}

theorem Longer.insert (h : Longer l m) (b : Byte) : Longer (l.insert b) (m.insert b) := by
  obtain ⟨hcursor, hrest, hlength⟩ := h
  refine ⟨Nat.succ_le_succ hcursor, ?_, ?_⟩
  · rw [Line.length_insert, Line.length_insert]
    exact (Nat.add_sub_add_right ..).trans_le (hrest.trans (Nat.add_sub_add_right ..).ge)
  · rw [Line.length_insert, Line.length_insert]
    omega

theorem Longer.extend (hcursor : l.cursor ≤ m.cursor)
    (hrest : l.text.length - l.cursor ≤ m.text.length - m.cursor)
    (hlength : l.text.length ≤ m.text.length) (b : Byte) : Longer l (m.insert b) := by
  refine ⟨Nat.le_succ_of_le hcursor, ?_, ?_⟩
  · rw [Line.length_insert]
    exact hrest.trans (Nat.add_sub_add_right ..).ge
  · rw [Line.length_insert]
    omega

theorem Longer.del (h : Longer l m) (hpos : l.cursor ≠ 0) : Longer l.del m.del := by
  obtain ⟨hcursor, hrest, hlength⟩ := h
  have hl := l.cursor_le
  have hm := m.cursor_le
  refine ⟨Nat.sub_le_sub_right hcursor 1, ?_, ?_⟩
  · rw [Line.length_del, Line.length_del]
    change _ - (l.cursor - 1) ≤ _ - (m.cursor - 1)
    omega
  · rw [Line.length_del, Line.length_del]
    omega

theorem Longer.left (h : Longer l m) : Longer l.left m.left := by
  obtain ⟨hcursor, hrest, hlength⟩ := h
  have hl := l.cursor_le
  have hm := m.cursor_le
  refine ⟨Nat.sub_le_sub_right hcursor 1, ?_, hlength⟩
  simp only [Line.left]
  omega

theorem Longer.right (h : Longer l m) : Longer l.right m.right := by
  obtain ⟨hcursor, hrest, hlength⟩ := h
  have hl := l.cursor_le
  have hm := m.cursor_le
  refine ⟨?_, ?_, hlength⟩
  · simp only [Line.right]
    omega
  · simp only [Line.right]
    omega

theorem Longer.toEnd (h : Longer l m) : Longer (Line.whole l.text) (Line.whole m.text) :=
  ⟨h.length.le, by simp [Line.whole], h.length⟩

end

/-- The editor of the kernel beside an ideal one that ignores the extended keys. -/
structure Beside (x : Effect) (ideal e : Ideal) : Prop where
  hist : e.hist = ideal.hist
  none : x = .none → e.line = ideal.line
  longer : x = .longer → Longer ideal.line e.line

section
variable {x : Effect} {ideal e : Ideal}

/-- Either both lines are replaced by the same one of the history, or both stay. -/
theorem Beside.recall (h : Beside x ideal e) (recalled : Option (List Byte) × History) :
    Beside (if recalled.1.isSome then .none else x) (ideal.recall recalled)
      (e.recall recalled) := by
  obtain ⟨record, hist⟩ := recalled
  cases record with
  | none => exact ⟨rfl, h.none, h.longer⟩
  | some record => exact ⟨rfl, fun _ => rfl, nofun⟩

theorem Beside.del (h : Beside x ideal e) :
    Beside (if x = .longer ∧ ideal.line.cursor = 0 then .mixed else x)
      (ideal.act .del) (e.act .del) := by
  split
  · exact ⟨h.hist, nofun, nofun⟩
  · rename_i hne
    exact ⟨h.hist, fun hx => congrArg Line.del (h.none hx),
      fun hx => (h.longer hx).del fun hzero => hne ⟨hx, hzero⟩⟩

/-- **One key** in both editors. -/
theorem Beside.watch (h : Beside x ideal e) {c : Nat} (hon : (action c).goesOn = true) :
    Beside (watch (ideal, x) c).2 (watch (ideal, x) c).1 (e.act (action c)) := by
  rw [Kmon.watch, Effect.after]
  cases hc : extended c with
  | true =>
    rw [if_pos rfl, if_pos rfl, action_extended hc]
    split
    · rename_i hx
      refine ⟨h.hist, nofun, fun _ => ?_⟩
      change Longer ideal.line (e.line.insert _)
      rw [h.none hx]
      exact .extend le_rfl le_rfl le_rfl _
    · rename_i hx
      refine ⟨h.hist, fun hnone => absurd hnone hx, fun hlonger => ?_⟩
      obtain ⟨hcursor, hrest, hlength⟩ := h.longer hlonger
      exact .extend hcursor hrest hlength.le _
  | false =>
    rw [if_neg nofun, if_neg nofun]
    cases hact : action c with
    | del => exact h.del
    | up | down =>
      rw [Ideal.act, Ideal.act, h.hist]
      exact h.recall _
    | left => exact ⟨h.hist, fun hx => congrArg Line.left (h.none hx), fun hx => (h.longer hx).left⟩
    | right =>
      exact ⟨h.hist, fun hx => congrArg Line.right (h.none hx), fun hx => (h.longer hx).right⟩
    | toEnd =>
      exact ⟨h.hist, fun hx => congrArg (fun l : Line => Line.whole l.text) (h.none hx),
        fun hx => (h.longer hx).toEnd⟩
    | insert b =>
      exact ⟨h.hist, fun hx => congrArg (Line.insert · b) (h.none hx),
        fun hx => (h.longer hx).insert b⟩
    | enter => rw [hact] at hon; cases hon
    | ctrlC => rw [hact] at hon; cases hon
    | unknown => rw [hact] at hon; cases hon

theorem Beside.keys (h : Beside x ideal e) {codes : List Nat}
    (hon : ∀ c ∈ codes, (action c).goesOn = true) :
    Beside (codes.foldl Kmon.watch (ideal, x)).2 (codes.foldl Kmon.watch (ideal, x)).1
      (codes.foldl (fun e c => e.act (action c)) e) := by
  induction codes generalizing x ideal e with
  | nil => exact h
  | cons c codes ih =>
    exact ih (h.watch (hon c List.mem_cons_self)) fun d hd => hon d (List.mem_cons_of_mem c hd)

end

theorem typed_beside (hist : History) {codes : List Nat}
    (hon : ∀ c ∈ codes, (action c).goesOn = true) :
    Beside (effect hist codes) (typed hist (codes.filter fun c => !extended c))
      (typed hist codes) := by
  have hstart : Beside .none ⟨Line.whole [], hist⟩ ⟨Line.whole [], hist⟩ :=
    ⟨rfl, fun _ => rfl, nofun⟩
  have hkeys := hstart.keys hon
  rwa [foldl_watch] at hkeys

/-- Behind Backspace at the start of the line either may be: `Home`, Backspace leaves nothing, but
`ab`, `Home`, left, left, Backspace makes a difference. -/
example :
    effect boot.hist [homeKey, 8] = .mixed ∧ (typed boot.hist [homeKey, 8]).line.text = [] ∧
    effect boot.hist [97, 98, homeKey, arrowLeft, arrowLeft, 8] = .mixed ∧
    (typed boot.hist [97, 98, homeKey, arrowLeft, arrowLeft, 8]).line.text = [98, 0xed] := by
  decide

end SpringOs.Kmon
