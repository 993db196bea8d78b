import Mathlib.Data.List.TakeWhile
import SpringOs.LineEditor

/-!
Whole sessions of the line editor: the keys pressed since the kernel started, for any codes, those
of `Home` and the like included, which are inserted as characters.

* `action`, `Ideal.act`: what `readline` does with a code, and what it does to the ideal line;
* `key_exactly`: each key stays in the buffers exactly when the line fits, and keeps the agreement;
* **`session_ok_iff`**: so do the keys of a session, when the ideal line fits at every edit;
* **`readline_simulates`**: printable text in a line that keeps to 128 characters.
-/

namespace SpringOs.Readline
open Kernel Lib.Bytes Lib.Machine Lib.Terminal

/-! ## What a key does -/

inductive Action
  | del
  | enter
  | left
  | right
  | up
  | down
  | ctrlC
  | toEnd
  | insert (b : Byte)
  | unknown
  deriving DecidableEq, Repr

/-- The branch of `readline` for a code. -/
def action (c : Nat) : Action :=
  if c = 8 ∨ c = 127 then .del
  else if c = 10 ∨ c = 13 then .enter
  else if c = arrowLeft then .left
  else if c = arrowRight then .right
  else if c = arrowUp then .up
  else if c = arrowDown then .down
  else if c = 3 then .ctrlC
  else if c = 5 then .toEnd
  else if 32 ≤ c then .insert (.ofNat 8 c)
  else .unknown

def State.act (s : State) : Action → Except Fault (State × Bool)
  | .del => do return ({ s with ed := ← linebufDel s.ed }, true)
  | .enter => do
    let str ← linebufToStr s.ed.lb
    return (⟨s.ed.print [10], linerecordAdd s.hist str, str⟩, false)
  | .left => .ok ({ s with ed := linebufCursorDec s.ed }, true)
  | .right => .ok ({ s with ed := linebufCursorInc s.ed }, true)
  | .up => do return (← recallLine s (linerecordPrev s.hist), true)
  | .down => do return (← recallLine s (linerecordNext s.hist), true)
  | .ctrlC => .ok ({ s with ed := s.ed.print [94, 67, 10] }, false)
  | .toEnd => .ok ({ s with ed := linebufCursorEnd s.ed }, true)
  | .insert b => do return ({ s with ed := ← linebufInsert s.ed b }, true)
  | .unknown => .ok (s, false)

theorem readlineKey_eq (s : State) (c : Nat) : readlineKey s c = s.act (action c) := by
  simp only [action, apply_ite s.act]
  rfl

/-- What is left to the next call when the line ends is its history. -/
def Ideal.act (e : Ideal) : Action → Ideal
  | .del => { e with line := e.line.del }
  | .enter => ⟨Line.whole [], linerecordAdd e.hist e.line.text⟩
  | .left => { e with line := e.line.left }
  | .right => { e with line := e.line.right }
  | .up => e.recall (linerecordPrev e.hist)
  | .down => e.recall (linerecordNext e.hist)
  | .toEnd => { e with line := Line.whole e.line.text }
  | .insert b => { e with line := e.line.insert b }
  | .ctrlC | .unknown => { e with line := Line.whole [] }

/-- `readline` goes on after the key. -/
def Action.goesOn : Action → Bool
  | .enter | .ctrlC | .unknown => false
  | _ => true

/-! ## The texts of the ideal editor -/

/-- Every character of the line and of the history is in `Q`. -/
structure Clean (Q : Byte → Prop) (e : Ideal) : Prop where
  text : ∀ b ∈ e.line.text, Q b
  records : ∀ record ∈ e.hist.lines, ∀ b ∈ record, Q b

section
variable {Q : Byte → Prop} {e : Ideal} (h : Clean Q e)
include h

theorem recall_clean {recalled : Option (List Byte) × History} (hrec : Recalls e.hist recalled) :
    Clean Q (e.recall recalled) := by
  obtain ⟨record, hist⟩ := recalled
  obtain ⟨hlines, hmem⟩ := hrec
  have hrecords : ∀ record ∈ hist.lines, ∀ b ∈ record, Q b := by
    rw [show hist.lines = e.hist.lines from hlines]
    exact h.records
  cases record with
  | none => exact ⟨h.text, hrecords⟩
  | some record => exact ⟨h.records record (hmem record rfl), hrecords⟩

theorem act_clean {a : Action} (ha : ∀ b, a = .insert b → Q b) : Clean Q (e.act a) := by
  have htext := h.text
  cases a with
  | del =>
    refine ⟨fun b hmem => ?_, h.records⟩
    rcases List.mem_append.1 hmem with hmem | hmem
    · exact htext b (List.mem_of_mem_take hmem)
    · exact htext b (List.mem_of_mem_drop hmem)
  | enter =>
    refine ⟨nofun, fun record hrecord => ?_⟩
    rcases List.mem_append.1 hrecord with hkept | hnew
    · exact h.records record (History.mem_of_mem_kept hkept)
    · rw [List.mem_singleton.1 hnew]
      exact fun b hmem => htext b (List.takeWhile_subset _ hmem)
  | left => exact ⟨htext, h.records⟩
  | right => exact ⟨htext, h.records⟩
  | toEnd => exact ⟨htext, h.records⟩
  | up => exact recall_clean h (linerecordPrev_recalls e.hist)
  | down => exact recall_clean h (linerecordNext_recalls e.hist)
  | insert c =>
    refine ⟨fun b hmem => ?_, h.records⟩
    rcases List.mem_append.1 hmem with hmem | hmem
    · rcases List.mem_append.1 hmem with hmem | hmem
      · exact htext b (List.mem_of_mem_take hmem)
      · rw [List.mem_singleton.1 hmem]
        exact ha c rfl
    · exact htext b (List.mem_of_mem_drop hmem)
  | ctrlC => exact ⟨nofun, h.records⟩
  | unknown => exact ⟨nofun, h.records⟩

end

/-! ## Keys -/

def Line.Takes (l : Line) (record : Option (List Byte)) : Prop :=
  ∀ r ∈ record, l.text.length ≤ 128 ∧ r.length ≤ 128

def Ideal.Safe (e : Ideal) : Action → Prop
  | .del => e.line.Fits
  | .insert _ => e.line.Fits ∧ e.line.cursor < 128
  | .up => e.line.Takes (linerecordPrev e.hist).1
  | .down => e.line.Takes (linerecordNext e.hist).1
  | _ => True

structure Tracks (plain : Prop) (prompt : List Byte) (e : Ideal) (s : State) : Prop where
  keeps : Keeps plain prompt s.ed e.line
  hist : s.hist = e.hist
  clean : plain → Clean Printable e

/-- What a key leaves behind: the line while `readline` goes on, `linestr` when it ends. -/
structure After (plain : Prop) (prompt : List Byte) (e : Ideal) (s : State) (a : Action)
    (r : State × Bool) : Prop where
  goesOn : r.2 = a.goesOn
  hist : r.1.hist = (e.act a).hist
  linestr : r.1.linestr = if a = .enter then e.line.text else s.linestr
  lsize : r.1.ed.lb.lbuf.size = 128
  rsize : r.1.ed.lb.rbuf.size = 128
  keeps : a.goesOn = true → Keeps plain prompt r.1.ed (e.act a).line

section
variable {plain : Prop} {prompt : List Byte} {e : Ideal} {s : State}

theorem After.more {a : Action} {ed : Editor} {hist : History} (hon : a.goesOn = true)
    (hline : Keeps plain prompt ed (e.act a).line) (hhist : hist = (e.act a).hist) :
    After plain prompt e s a (⟨ed, hist, s.linestr⟩, true) where
  goesOn := hon.symm
  hist := hhist
  linestr := by
    rw [if_neg]
    rintro rfl
    cases hon
  lsize := hline.lsize
  rsize := hline.rsize
  keeps := fun _ => hline

section
variable (h : Tracks plain prompt e s)
include h

theorem After.last {a : Action} (hon : a.goesOn = false) {out} {hist : History}
    {linestr : List Byte} (hhist : hist = (e.act a).hist)
    (hstr : linestr = if a = .enter then e.line.text else s.linestr) :
    After plain prompt e s a (⟨⟨s.ed.lb, out⟩, hist, linestr⟩, false) where
  goesOn := hon.symm
  hist := hhist
  linestr := hstr
  lsize := h.keeps.lsize
  rsize := h.keeps.rsize
  keeps := fun htrue => by rw [hon] at htrue; cases htrue

theorem recall_exactly {a : Action} (hon : a.goesOn = true)
    {recalled : Option (List Byte) × History} (hact : e.act a = e.recall recalled)
    (hrec : Recalls e.hist recalled) :
    Exactly (do return (← recallLine s recalled, true)) (e.line.Takes recalled.1)
      (After plain prompt e s a) := by
  obtain ⟨record, hist⟩ := recalled
  cases record with
  | none =>
    refine .of_ok nofun rfl (.more hon ?_ ?_)
    · rw [hact]
      exact h.keeps
    · rw [hact]
      rfl
  | some record =>
    have htakes : e.line.text.length ≤ 128 ∧ record.length ≤ 128 ↔ e.line.Takes (some record) :=
      ⟨fun hfits r hr => Option.some.inj hr ▸ hfits, fun htakes => htakes record rfl⟩
    have hline := (replaceLine_exactly h.keeps (fun hplain => (h.clean hplain).text)
      fun hplain => (h.clean hplain).records record (hrec.2 record rfl)).map
      (S := fun s' => After plain prompt e s a (s', true)) (f := fun ed => { s with ed, hist })
      fun ed hed => .more hon (by rw [hact]; exact hed) (by rw [hact]; rfl)
    exact (hline.map fun _ hs => hs).congr htakes

theorem key_exactly {c : Nat} (hc : plain → ∀ b, action c = .insert b → Printable b) :
    Exactly (readlineKey s c) (e.Safe (action c)) (After plain prompt e s (action c)) := by
  rw [readlineKey_eq]
  have htext := fun hplain => (h.clean hplain).text
  generalize action c = a at hc
  cases a with
  | del => exact (del_exactly h.keeps htext).map fun ed hed => After.more rfl hed h.hist
  | insert b =>
    exact (insert_exactly h.keeps htext fun hplain => hc hplain b rfl).map fun ed hed =>
      After.more rfl hed h.hist
  | left => exact .of_ok trivial rfl (.more rfl (cursorDec_keeps h.keeps) h.hist)
  | right => exact .of_ok trivial rfl (.more rfl (cursorInc_keeps h.keeps) h.hist)
  | toEnd => exact .of_ok trivial rfl (.more rfl (cursorEnd_keeps h.keeps) h.hist)
  | up =>
    rw [State.act, h.hist]
    exact recall_exactly h rfl rfl (linerecordPrev_recalls e.hist)
  | down =>
    rw [State.act, h.hist]
    exact recall_exactly h rfl rfl (linerecordNext_recalls e.hist)
  | ctrlC => exact .of_ok trivial rfl (After.last h rfl h.hist rfl)
  | unknown => exact .of_ok trivial rfl (After.last h rfl h.hist rfl)
  | enter =>
    have hstr : linebufToStr s.ed.lb = .ok e.line.text := by
      have hl := h.keeps.lfits
      have hr := h.keeps.rfits
      rw [linebufToStr, if_pos (by rw [buflen]; omega), h.keeps.text]
    rw [State.act, hstr]
    exact .of_ok trivial rfl (After.last h rfl (by rw [h.hist]; rfl) rfl)

end

theorem act_last {a : Action} (h : a.goesOn = false) : (e.act a).line = Line.whole [] := by
  cases a with
  | enter => rfl
  | ctrlC => rfl
  | unknown => rfl
  | _ => cases h

/-- A prompt that `printf` prints as it is. -/
structure Prompt where
  text : List Byte
  printable : ∀ b ∈ text, Printable b
  ne_nil : text ≠ []
  length_le : text.length ≤ 4095

/-- `">"` -/
def kmonPrompt : Prompt := ⟨[62], by decide, by decide, by decide⟩

theorem readlineStart_keeps (prompt : Prompt) {s : State} (hl : s.ed.lb.lbuf.size = 128)
    (hr : s.ed.lb.rbuf.size = 128) :
    ∃ ed, readlineStart prompt.text s = .ok { s with ed } ∧
      Keeps plain prompt.text ed (Line.whole []) := by
  have hprint : printfS prompt.text = .ok prompt.text := by
    rw [printfS, if_neg prompt.ne_nil, List.take_of_length_le prompt.length_le]
  refine ⟨⟨linebufClear s.ed.lb, prompt.text⟩, ?_, rfl, rfl, hl, hr, Nat.zero_le _,
    Nat.zero_le _, fun _ => ?_⟩
  · rw [readlineStart, hprint]
    rfl
  · rw [run_text_end prompt.printable (Nat.zero_le _) (Nat.zero_le _)]
    simp [screen, Line.whole]

/-- The next line is begun when a key ends one. -/
theorem press_exactly (prompt : Prompt) (h : Tracks plain prompt.text e s) {c : Nat}
    (hc : plain → ∀ b, action c = .insert b → Printable b) :
    Exactly (pressKey prompt.text s c) (e.Safe (action c))
      (Tracks plain prompt.text (e.act (action c))) := by
  have hkey := key_exactly h hc
  have hclean := fun hplain => act_clean (h.clean hplain) (hc hplain)
  rw [pressKey]
  cases hrun : readlineKey s c with
  | error f =>
    rw [hrun] at hkey
    exact .of_error hkey ⟨f, rfl⟩
  | ok r =>
    rw [hrun] at hkey
    obtain ⟨hsafe, hafter⟩ := hkey
    obtain ⟨s', on⟩ := r
    cases on with
    | true => exact .of_ok hsafe rfl ⟨hafter.keeps hafter.goesOn.symm, hafter.hist, hclean⟩
    | false =>
      obtain ⟨ed, hstart, hkeeps⟩ := readlineStart_keeps prompt hafter.lsize hafter.rsize
      refine .of_ok hsafe hstart ⟨?_, hafter.hist, hclean⟩
      rw [act_last hafter.goesOn.symm]
      exact hkeeps

end

/-! ## Whole sessions -/

def InBounds (e : Ideal) (codes : List Nat) : Prop :=
  Along (fun e c => e.Safe (action c)) (fun e c => e.act (action c)) e codes

theorem session_exactly (prompt : Prompt) {plain : Prop} {codes : List Nat}
    (hcodes : ∀ c ∈ codes, plain → ∀ b, action c = .insert b → Printable b) :
    Exactly (session prompt.text codes) (InBounds Ideal.start codes)
      (Tracks plain prompt.text (codes.foldl (fun e c => e.act (action c)) Ideal.start)) := by
  obtain ⟨ed, hstart, hkeeps⟩ := readlineStart_keeps prompt (s := boot) rfl rfl
  have htracks : Tracks plain prompt.text Ideal.start { boot with ed } :=
    ⟨hkeeps, rfl, fun _ => ⟨nofun, nofun⟩⟩
  rw [session, hstart]
  refine Exactly.foldlM (R := Tracks plain prompt.text) (fun e s c hc h => ?_) htracks
  exact press_exactly prompt h (hcodes c hc)

/-- The keys stay in the buffers, and pass every assertion, exactly when the line fits: at an edit
there are at most 128 characters on either side of the cursor, and less than that in front of it
when one is inserted, and neither the line nor the record has more than 128 when one is recalled. -/
theorem session_ok_iff (prompt : Prompt) (codes : List Nat) :
    (∃ s, session prompt.text codes = .ok s) ↔ InBounds Ideal.start codes := by
  have hcodes : ∀ c ∈ codes, False → ∀ b, action c = .insert b → Printable b :=
    fun _ _ => False.elim
  exact (session_exactly prompt hcodes).ok_iff

/-- The character behind 128 of them. -/
theorem session_trips :
    ¬ ∃ s, session kmonPrompt.text (List.replicate 129 97) = .ok s := by
  have h : (session kmonPrompt.text (List.replicate 129 97)).isOk = false := by decide +kernel
  rintro ⟨s, hs⟩
  rw [hs] at h
  cases h

/-! ## Lines of printable text -/

theorem action_text {b : Byte} (hb : Printable b) : action b.toNat = .insert b := by
  obtain ⟨hlow, hdel⟩ := hb
  rw [action, if_neg (by omega), if_neg (by omega), if_neg (by rw [arrowLeft]; omega),
    if_neg (by rw [arrowRight]; omega), if_neg (by rw [arrowUp]; omega),
    if_neg (by rw [arrowDown]; omega), if_neg (by omega), if_neg (by omega), if_pos hlow,
    BitVec.ofNat_toNat, BitVec.setWidth_eq]

theorem press_eq_act (e : Ideal) (k : Key) : e.press k = e.act (action k.code) := by
  cases k with
  | text b hb => exact congrArg e.act (action_text hb).symm
  | _ => rfl

theorem code_printable (k : Key) {b : Byte} (h : action k.code = .insert b) : Printable b := by
  cases k with
  | text c hc =>
    cases (action_text hc).symm.trans h
    exact hc
  | _ => cases h

theorem takes_of_recall {e : Ideal} {recalled : Option (List Byte) × History}
    (h : e.line.text.length ≤ 128) (hnext : (e.recall recalled).line.text.length ≤ 128) :
    e.line.Takes recalled.1 := by
  obtain ⟨record, hist⟩ := recalled
  rintro r hr
  cases hr
  exact ⟨h, hnext⟩

theorem safe_of_fits {e : Ideal} {k : Key} (h : e.line.text.length ≤ 128)
    (hnext : (e.press k).line.text.length ≤ 128) : e.Safe (action k.code) := by
  have hle := e.line.cursor_le
  have hfits : e.line.Fits := ⟨by omega, by omega⟩
  cases k with
  | text b hb =>
    change e.Safe (action b.toNat)
    rw [action_text hb]
    have hlen : (e.line.insert b).text.length ≤ 128 := hnext
    rw [Line.length_insert] at hlen
    exact ⟨hfits, by omega⟩
  | backspace => exact hfits
  | delete => exact hfits
  | up => exact takes_of_recall h hnext
  | down => exact takes_of_recall h hnext
  | _ => trivial

theorem Fits.inBounds {e : Ideal} {keys : List Key} (h : Fits e keys) :
    InBounds e (keys.map Key.code) := by
  induction keys generalizing e with
  | nil => trivial
  | cons k keys ih =>
    have hrest := ih h.2
    rw [press_eq_act] at hrest
    exact ⟨safe_of_fits h.1 h.2.length_le, hrest⟩

theorem foldl_code (e : Ideal) (keys : List Key) :
    (keys.map Key.code).foldl (fun e c => e.act (action c)) e = keys.foldl Ideal.press e := by
  rw [List.foldl_map, funext₂ press_eq_act]

/-- As long as the line keeps to 128 characters, the buffers hold the ideal text, `cursor_pos` is
the ideal cursor, and the terminal shows the prompt and the text with its cursor there. -/
theorem readline_simulates (prompt : Prompt) (keys : List Key) (hfits : Fits Ideal.start keys) :
    ∃ s, session prompt.text (keys.map Key.code) = .ok s ∧
      s.ed.lb.lbuf.text ++ s.ed.lb.rbuf.text = (ideal keys).line.text ∧
      s.ed.lb.cursorPos = (ideal keys).line.cursor ∧
      s.ed.lb.cursorPos ≤ (ideal keys).line.text.length ∧
      run (line [] 0) s.ed.out =
        line (prompt.text ++ (ideal keys).line.text) (prompt.text.length + s.ed.lb.cursorPos) := by
  have hcodes : ∀ c ∈ keys.map Key.code, True → ∀ b, action c = .insert b → Printable b := by
    intro c hc _ b hb
    obtain ⟨k, -, rfl⟩ := List.mem_map.1 hc
    exact code_printable k hb
  have hsession := session_exactly prompt hcodes
  obtain ⟨s, hrun⟩ := hsession.ok_iff.2 hfits.inBounds
  have hend := (hsession.result hrun).keeps
  rw [foldl_code] at hend
  refine ⟨s, hrun, hend.text, hend.cursor, ?_, ?_⟩
  · rw [hend.cursor]
    exact (ideal keys).line.cursor_le
  · rw [hend.shown trivial, hend.cursor]
    rfl

/-- `ab`, left, `c`, enter, then up and backspace: the line `acb` comes back and loses its end. -/
theorem readline_simulates_recall :
    let keys : List Key := [.text 97 (by decide), .text 98 (by decide), .left,
      .text 99 (by decide), .enter, .up, .backspace]
    (ideal keys).line.text = [97, 99] ∧
    ∃ s, session kmonPrompt.text (keys.map Key.code) = .ok s ∧
      s.ed.lb.lbuf.text ++ s.ed.lb.rbuf.text = (ideal keys).line.text ∧
      s.ed.lb.cursorPos = (ideal keys).line.cursor ∧
      s.ed.lb.cursorPos ≤ (ideal keys).line.text.length ∧
      run (line [] 0) s.ed.out =
        line (kmonPrompt.text ++ (ideal keys).line.text)
          (kmonPrompt.text.length + s.ed.lb.cursorPos) := by
  refine ⟨by decide, readline_simulates kmonPrompt _ ?_⟩
  simp only [Fits]
  decide

end SpringOs.Readline
