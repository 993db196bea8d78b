import SpringOs.Lib.Machine
import SpringOs.Readline

/-!
The line editor of the kernel monitor against an ideal one, which has a text and a cursor. Nothing
in `readline` looks at the size of its buffers, so a line that is long enough runs over them.

* `Keeps`: buffers and `cursor_pos` agree with an ideal line, and so does the terminal as long as
  everything typed is printable;
* `insert_exactly`, `del_exactly`, `replaceLine_exactly`: each edit stays in the buffers exactly
  when both sides of the cursor fit, and then it keeps the agreement.
-/

namespace SpringOs.Readline
open Kernel Lib.Bytes Lib.Machine Lib.Terminal

/-! ## The ideal editor -/

@[ext] structure Line where
  text : List Byte
  cursor : Nat
  cursor_le : cursor ≤ text.length

def Line.whole (text : List Byte) : Line := ⟨text, text.length, Nat.le_refl _⟩

def Line.insert (l : Line) (b : Byte) : Line where
  text := l.text.take l.cursor ++ [b] ++ l.text.drop l.cursor
  cursor := l.cursor + 1
  cursor_le := by
    have := l.cursor_le
    simp
    omega

def Line.del (l : Line) : Line where
  text := l.text.take (l.cursor - 1) ++ l.text.drop l.cursor
  cursor := l.cursor - 1
  cursor_le := by
    have := l.cursor_le
    simp
    omega

def Line.left (l : Line) : Line := ⟨l.text, l.cursor - 1, (Nat.sub_le _ _).trans l.cursor_le⟩

def Line.right (l : Line) : Line := ⟨l.text, min (l.cursor + 1) l.text.length, Nat.min_le_right _ _⟩

theorem Line.whole_insert (t : List Byte) (b : Byte) : (whole t).insert b = whole (t ++ [b]) := by
  ext1 <;> simp [insert, whole]

theorem Line.whole_del (t : List Byte) : (whole t).del = whole t.dropLast := by
  ext1 <;> simp [del, whole, List.dropLast_eq_take]

theorem Line.length_insert (l : Line) (b : Byte) :
    (l.insert b).text.length = l.text.length + 1 := by
  have := l.cursor_le
  simp [insert]
  omega

theorem Line.length_del (l : Line) : l.del.text.length = l.text.length - min l.cursor 1 := by
  have := l.cursor_le
  simp [del]
  omega

theorem Line.del_start {l : Line} (h : l.cursor = 0) : l.del = l := by
  ext1 <;> simp [del, h]

theorem Line.right_end {l : Line} (h : ¬ l.cursor < l.text.length) : l.right = l := by
  have hle := l.cursor_le
  ext1
  · rfl
  · dsimp only [right]
    omega

theorem Line.left_start {l : Line} (h : ¬ 0 < l.cursor) : l.left = l := by
  ext1
  · rfl
  · dsimp only [left]
    omega

theorem Line.whole_end {l : Line} (h : ¬ l.cursor < l.text.length) : whole l.text = l := by
  have hle := l.cursor_le
  ext1
  · rfl
  · dsimp only [whole]
    omega

/-- The keys of the editor, and those that end a line. -/
inductive Key
  | text (b : Byte) (h : Printable b)
  | backspace
  | delete
  | left
  | right
  | ctrlE
  | up
  | down
  | newline
  | enter
  | ctrlC

/-- What `readkey` returns for it. -/
def Key.code : Key → Nat
  | .text b _ => b.toNat
  | .backspace => 8
  | .delete => 127
  | .left => arrowLeft
  | .right => arrowRight
  | .ctrlE => 5
  | .up => arrowUp
  | .down => arrowDown
  | .newline => 10
  | .enter => 13
  | .ctrlC => 3

structure Ideal where
  line : Line
  hist : History

def Ideal.start : Ideal := ⟨Line.whole [], History.empty⟩

def Ideal.recall (e : Ideal) (recalled : Option (List Byte) × History) : Ideal :=
  match recalled with
  | (some record, hist) => ⟨Line.whole record, hist⟩
  | (none, hist) => { e with hist }

def Ideal.press (e : Ideal) : Key → Ideal
  | .text b _ => { e with line := e.line.insert b }
  | .backspace | .delete => { e with line := e.line.del }
  | .left => { e with line := e.line.left }
  | .right => { e with line := e.line.right }
  | .ctrlE => { e with line := Line.whole e.line.text }
  | .up => e.recall (linerecordPrev e.hist)
  | .down => e.recall (linerecordNext e.hist)
  | .newline | .enter => ⟨Line.whole [], linerecordAdd e.hist e.line.text⟩
  | .ctrlC => { e with line := Line.whole [] }

/-- The ideal editor after all the keys since the kernel started. -/
def ideal (keys : List Key) : Ideal := keys.foldl Ideal.press Ideal.start

def Fits (e : Ideal) : List Key → Prop
  | [] => e.line.text.length ≤ 128
  | k :: keys => e.line.text.length ≤ 128 ∧ Fits (e.press k) keys

theorem Fits.length_le {e : Ideal} {keys : List Key} (h : Fits e keys) :
    e.line.text.length ≤ 128 := by
  cases keys with
  | nil => exact h
  | cons => exact h.1

/-! ## What the terminal shows -/

theorem run_forwd (s : List Byte) (k n : Nat) : run (line s k) (forwd n) = line s (k + n) := by
  rw [forwd]
  split
  · rename_i hn
    exact run_forward hn s k
  · rename_i hn
    rw [Nat.eq_zero_of_not_pos hn]
    rfl

theorem run_backwd (s : List Byte) (k n : Nat) : run (line s (k + n)) (backwd n) = line s k := by
  rw [backwd]
  split
  · rename_i hn
    rw [run_backward hn, Nat.add_sub_cancel]
  · rename_i hn
    rw [Nat.eq_zero_of_not_pos hn]
    rfl

section
variable (prompt : List Byte) (l : Line)

def screen : Term := line (prompt ++ l.text) (prompt.length + l.cursor)

theorem run_insert {b : Byte} (hb : Printable b) (hl : ∀ c ∈ l.text, Printable c) :
    run (screen prompt l) ([b] ++ l.text.drop l.cursor ++ backwd (l.text.drop l.cursor).length) =
      screen prompt (l.insert b) := by
  have hle := l.cursor_le
  have hprint : ∀ c ∈ [b] ++ l.text.drop l.cursor, Printable c := by
    intro c hc
    rcases List.mem_append.1 hc with hc | hc
    · rwa [List.mem_singleton.1 hc]
    · exact hl c (List.mem_of_mem_drop hc)
  have hcursor : prompt.length + l.cursor + ([b] ++ l.text.drop l.cursor).length =
      prompt.length + (l.cursor + 1) + (l.text.drop l.cursor).length := by
    rw [List.length_append, List.length_singleton]
    omega
  rw [screen, run_append, run_text_end hprint (by rw [List.length_append]; omega)
    (by simp; omega), List.take_length_add_append, hcursor, run_backwd, List.append_assoc,
    ← List.append_assoc (l.text.take l.cursor)]
  rfl

theorem run_del (hpos : 0 < l.cursor) (hl : ∀ c ∈ l.text, Printable c) :
    run (screen prompt l) (forwd (l.text.drop l.cursor).length ++
        backspace ((l.text.drop l.cursor).length + 1) ++ l.text.drop l.cursor ++
        backwd (l.text.drop l.cursor).length) =
      screen prompt l.del := by
  have hle := l.cursor_le
  have hend : prompt.length + l.cursor + (l.text.drop l.cursor).length =
      (prompt ++ l.text).length := by
    rw [List.length_append, List.length_drop]
    omega
  have hcut : (prompt ++ l.text).length - ((l.text.drop l.cursor).length + 1) =
      prompt.length + (l.cursor - 1) := by
    rw [List.length_append, List.length_drop]
    omega
  have hrest : (prompt ++ l.text.take (l.cursor - 1)).length = prompt.length + (l.cursor - 1) := by
    rw [List.length_append, List.length_take_of_le (by omega)]
  rw [screen, run_append, run_append, run_append, run_forwd, hend, backspace,
    run_erase _ (by rw [List.length_append, List.length_drop]; omega), hcut,
    List.take_length_add_append,
    run_text_end (fun c hc => hl c (List.mem_of_mem_drop hc)) (Nat.le_of_eq hrest.symm)
      (by rw [hrest]; omega),
    List.take_of_length_le (Nat.le_of_eq hrest), run_backwd, List.append_assoc]
  rfl

theorem run_right (hlt : l.cursor < l.text.length) :
    run (screen prompt l) (forward 1) = screen prompt l.right := by
  rw [screen, run_forward Nat.one_pos, screen, Line.right]
  dsimp only
  rw [Nat.min_eq_left hlt, Nat.add_assoc]

theorem run_left (hpos : 0 < l.cursor) :
    run (screen prompt l) (backward 1) = screen prompt l.left := by
  rw [screen, run_backward Nat.one_pos, screen, Line.left]
  dsimp only
  rw [Nat.add_sub_assoc hpos]

end

/-! ## When the buffers are too small -/

theorem shiftUp_trips {off n : Nat} {b : Buffer} (h : b.size ≤ n + off) :
    ∃ f, shiftUp off (n + 1) b = .error f := by
  rw [shiftUp]
  cases hget : b.get n with
  | error f => exact ⟨f, rfl⟩
  | ok c =>
    have hset : b.set (n + off) c = .error .outOfBounds := if_neg (Nat.not_lt.mpr h)
    refine ⟨.outOfBounds, ?_⟩
    change (b.set (n + off) c >>= _) = _
    rw [hset]
    rfl

theorem copyLoop_trips (src : Buffer) (j : Nat) {dst : Buffer} {n i : Nat} (hi : i ≤ dst.size)
    (h : dst.size < i + n) : ∃ f, copyLoop src n i j dst = .error f := by
  induction n generalizing i j dst with
  | zero => omega
  | succ n ih =>
    rw [copyLoop]
    cases hget : src.get j with
    | error f => exact ⟨f, rfl⟩
    | ok c =>
      change ∃ f, (dst.set i c >>= _) = .error f
      rcases Nat.lt_or_ge i dst.size with hlt | hge
      · rw [Buffer.set_eq hlt]
        exact ih _ hlt (by dsimp only; omega)
      · have hset : dst.set i c = .error .outOfBounds := if_neg (Nat.not_lt.mpr hge)
        rw [hset]
        exact ⟨.outOfBounds, rfl⟩

theorem linebufSync_trips {lb : Linebuf} (hl : lb.lbuf.curSize ≤ lb.lbuf.size)
    (hr : lb.rbuf.curSize ≤ lb.rbuf.size)
    (hout : lb.lbuf.size < lb.cursorPos ∨ lb.rbuf.size < lb.text.length - lb.cursorPos) :
    ∃ f, linebufSync lb = .error f := by
  rw [length_text] at hout
  rcases Nat.lt_trichotomy lb.cursorPos lb.lbuf.curSize with hlt | heq | hgt
  · -- what moves to the right does not fit there
    rw [linebufSync, if_pos hlt]
    cases hcur : lb.rbuf.curSize with
    | zero =>
      have hsmall : lb.rbuf.size < 0 + (lb.lbuf.curSize - lb.cursorPos) := by omega
      obtain ⟨f, hcopy⟩ := copyLoop_trips lb.lbuf lb.cursorPos (Nat.zero_le _) hsmall
      refine ⟨f, ?_⟩
      dsimp only
      rw [shiftUp]
      change (copyLoop lb.lbuf _ 0 lb.cursorPos lb.rbuf >>= _) = _
      rw [hcopy]
      rfl
    | succ n =>
      have hsmall : lb.rbuf.size ≤ n + (lb.lbuf.curSize - lb.cursorPos) := by omega
      obtain ⟨f, hshift⟩ := shiftUp_trips hsmall
      refine ⟨f, ?_⟩
      dsimp only
      rw [hshift]
      rfl
  · omega
  · rw [linebufSync, if_neg (Nat.lt_asymm hgt), if_pos hgt]
    have hsmall : lb.lbuf.size < lb.lbuf.curSize + (lb.cursorPos - lb.lbuf.curSize) := by omega
    obtain ⟨f, hcopy⟩ := copyLoop_trips lb.rbuf 0 hl hsmall
    refine ⟨f, ?_⟩
    dsimp only
    rw [hcopy]
    rfl

/-! ## The operations -/

/-- Buffers and cursor agree with an ideal line; so does the terminal if `plain` holds, that is, if
only printable characters are typed. -/
structure Keeps (plain : Prop) (prompt : List Byte) (ed : Editor) (l : Line) : Prop where
  text : ed.lb.text = l.text
  cursor : ed.lb.cursorPos = l.cursor
  lsize : ed.lb.lbuf.size = 128
  rsize : ed.lb.rbuf.size = 128
  lfits : ed.lb.lbuf.curSize ≤ 128
  rfits : ed.lb.rbuf.curSize ≤ 128
  shown : plain → run (line [] 0) ed.out = screen prompt l

def Line.Fits (l : Line) : Prop := l.cursor ≤ 128 ∧ l.text.length - l.cursor ≤ 128

section
variable {plain : Prop} {prompt : List Byte} {ed : Editor} {l : Line}

section

variable (h : Keeps plain prompt ed l)
include h

theorem Keeps.within (hfits : l.Fits) : Within ed.lb := by
  obtain ⟨htext, hcursor, hls, hrs, hl, hr, -⟩ := h
  refine ⟨?_, ?_, ?_, ?_, ?_⟩
  · rw [hcursor, htext]
    exact l.cursor_le
  · rwa [hls]
  · rwa [hrs]
  · rw [hcursor, hls]
    exact hfits.1
  · rw [hcursor, htext, hrs]
    exact hfits.2

theorem Keeps.sync_trips (hnot : ¬ l.Fits) : ∃ f, linebufSync ed.lb = .error f := by
  have hcursor := h.cursor
  have hlen := congrArg List.length h.text
  refine linebufSync_trips (by rw [h.lsize]; exact h.lfits) (by rw [h.rsize]; exact h.rfits) ?_
  rw [h.lsize, h.rsize, hcursor, hlen]
  rw [Line.Fits] at hnot
  omega

theorem Keeps.edit {lb : Linebuf} {left right bytes : List Byte} {l' : Line}
    (hp : Parted ed.lb lb left right) (htext : l'.text = left ++ right)
    (hcursor : l'.cursor = left.length) (hl : left.length ≤ 128) (hr : right.length ≤ 128)
    (hrun : plain → run (screen prompt l) bytes = screen prompt l') :
    Keeps plain prompt ⟨lb, ed.out ++ bytes⟩ l' where
  text := by rw [Linebuf.text, hp.left, hp.right, htext]
  cursor := hp.cursor.trans hcursor.symm
  lsize := hp.lsize.trans h.lsize
  rsize := hp.rsize.trans h.rsize
  lfits := by rwa [← hp.left, Buffer.length_text] at hl
  rfits := by rwa [← hp.right, Buffer.length_text] at hr
  shown := fun hplain => by rw [run_append, h.shown hplain, hrun hplain]

theorem Keeps.move {l' : Line} {pos : Nat} {bytes : List Byte} (htext : l'.text = l.text)
    (hpos : pos = l'.cursor) (hrun : run (screen prompt l) bytes = screen prompt l') :
    Keeps plain prompt ⟨{ ed.lb with cursorPos := pos }, ed.out ++ bytes⟩ l' :=
  ⟨h.text.trans htext.symm, hpos, h.lsize, h.rsize, h.lfits, h.rfits,
    fun hplain => by rw [run_append, h.shown hplain, hrun]⟩

theorem Keeps.end_iff :
    ed.lb.cursorPos < ed.lb.rbuf.curSize + ed.lb.lbuf.curSize ↔ l.cursor < l.text.length := by
  rw [h.cursor, ← h.text, length_text, Nat.add_comm]

theorem insert_full (hfits : l.Fits) (hfull : 128 ≤ l.cursor) (b : Byte) :
    ∃ f, linebufInsert ed b = .error f := by
  obtain ⟨lb, hsync, hp⟩ := linebufSync_spec (h.within hfits)
  have hcur := hp.curSize
  have hpos : lb.cursorPos = l.cursor := by
    rw [hp.cursor, h.text, h.cursor, List.length_take_of_le l.cursor_le]
  have hset : lb.lbuf.set lb.lbuf.curSize b = .error .outOfBounds := by
    refine if_neg ?_
    rw [hcur, hpos, hp.lsize, h.lsize]
    exact Nat.not_lt.mpr hfull
  refine ⟨.outOfBounds, ?_⟩
  simp only [linebufInsert, hsync, bind, Except.bind, if_pos hcur, hset]

theorem insert_exactly (hl : plain → ∀ c ∈ l.text, Printable c) {b : Byte}
    (hb : plain → Printable b) :
    Exactly (linebufInsert ed b) (l.Fits ∧ l.cursor < 128) (Keeps plain prompt · (l.insert b)) := by
  by_cases hfits : l.Fits
  · rcases Nat.lt_or_ge l.cursor 128 with hlt | hge
    · obtain ⟨lb, hrun, hp⟩ := linebufInsert_spec (h.within hfits)
        (by rw [h.cursor, h.lsize]; exact hlt) b
      rw [h.text, h.cursor] at hrun hp
      have hlen : (l.text.take l.cursor ++ [b]).length = l.cursor + 1 := by
        rw [List.length_append, List.length_take_of_le l.cursor_le]
        rfl
      refine .of_ok ⟨hfits, hlt⟩ hrun (h.edit hp rfl hlen.symm ?_ ?_ fun hplain =>
        run_insert prompt l (hb hplain) (hl hplain))
      · rw [hlen]
        exact hlt
      · rw [List.length_drop]
        exact hfits.2
    · exact .of_error (fun hp => Nat.not_lt.mpr hge hp.2) (insert_full h hfits hge b)
  · refine .of_error (fun hp => hfits hp.1) ?_
    obtain ⟨f, hsync⟩ := h.sync_trips hfits
    exact ⟨f, by rw [linebufInsert, hsync]; rfl⟩

theorem del_exactly (hl : plain → ∀ c ∈ l.text, Printable c) :
    Exactly (linebufDel ed) l.Fits (Keeps plain prompt · l.del) := by
  by_cases hfits : l.Fits
  · have hle := l.cursor_le
    have hright : (l.text.drop l.cursor).length ≤ 128 := by
      rw [List.length_drop]
      exact hfits.2
    rcases Nat.eq_zero_or_pos l.cursor with hzero | hpos
    · obtain ⟨lb, hrun, hp⟩ := linebufDel_start (h.within hfits) (h.cursor.trans hzero)
      rw [h.text] at hp
      refine .of_ok hfits hrun ?_
      rw [Line.del_start hzero]
      rw [hzero, List.drop_zero] at hright
      exact List.append_nil ed.out ▸ h.edit hp rfl hzero (Nat.zero_le _) hright fun _ => rfl
    · obtain ⟨lb, hrun, hp⟩ := linebufDel_spec (h.within hfits) (by rwa [h.cursor])
      rw [h.text, h.cursor] at hrun hp
      have hlen : (l.text.take (l.cursor - 1)).length = l.cursor - 1 :=
        List.length_take_of_le (by omega)
      refine .of_ok hfits hrun (h.edit hp rfl hlen.symm ?_ hright fun hplain =>
        run_del prompt l hpos (hl hplain))
      have hleft := hfits.1
      omega
  · refine .of_error hfits ?_
    obtain ⟨f, hsync⟩ := h.sync_trips hfits
    exact ⟨f, by rw [linebufDel, hsync]; rfl⟩

theorem right_keeps (hlt : l.cursor < l.text.length) : Keeps plain prompt
    (Editor.print { ed with lb.cursorPos := ed.lb.cursorPos + 1 } (forward 1)) l.right := by
  refine h.move rfl ?_ (run_right prompt l hlt)
  rw [h.cursor]
  exact (Nat.min_eq_left hlt).symm

theorem cursorInc_keeps : Keeps plain prompt (linebufCursorInc ed) l.right := by
  rw [linebufCursorInc]
  split
  · rename_i hlt
    exact right_keeps h (h.end_iff.1 hlt)
  · rename_i hge
    rwa [Line.right_end (mt h.end_iff.2 hge)]

theorem cursorDec_keeps : Keeps plain prompt (linebufCursorDec ed) l.left := by
  rw [linebufCursorDec, h.cursor]
  split
  · rename_i hpos
    exact h.move rfl rfl (run_left prompt l hpos)
  · rename_i hzero
    rwa [Line.left_start hzero]

theorem cursorEnd_keeps : Keeps plain prompt (linebufCursorEnd ed) (Line.whole l.text) := by
  induction ed using linebufCursorEnd.induct generalizing l with
  | case1 ed hlt ih =>
    rw [linebufCursorEnd, if_pos hlt]
    exact ih (l := l.right) (right_keeps h (h.end_iff.1 hlt))
  | case2 ed hge =>
    rw [linebufCursorEnd, if_neg hge]
    rwa [Line.whole_end (mt h.end_iff.2 hge)]

end

theorem whole_fits (t : List Byte) : (Line.whole t).Fits ↔ t.length ≤ 128 := by
  dsimp only [Line.Fits, Line.whole]
  omega

theorem delLoop_exactly {t : List Byte} (h : Keeps plain prompt ed (Line.whole t))
    (hl : plain → ∀ c ∈ t, Printable c) :
    Exactly (delLoop t.length ed) (t.length ≤ 128) (Keeps plain prompt · (Line.whole [])) := by
  generalize hn : t.length = n
  induction n generalizing ed t with
  | zero =>
    rw [List.length_eq_zero_iff.1 hn] at h
    exact ⟨Nat.zero_le _, h⟩
  | succ n ih =>
    have hlen : t.dropLast.length = n := by rw [List.length_dropLast, hn, Nat.add_sub_cancel]
    have hrest := (del_exactly h hl).bind fun ed' _ hed => ih (Line.whole_del t ▸ hed)
      (fun hplain c hc => hl hplain c (List.dropLast_subset t hc)) hlen
    refine hrest.congr ?_
    rw [whole_fits]
    omega

theorem insertAll_exactly {t : List Byte} (record : List Byte)
    (h : Keeps plain prompt ed (Line.whole t)) (ht : t.length ≤ 128)
    (hl : plain → ∀ c ∈ t ++ record, Printable c) :
    Exactly (record.foldlM linebufInsert ed) ((t ++ record).length ≤ 128)
      (Keeps plain prompt · (Line.whole (t ++ record))) := by
  induction record generalizing ed t with
  | nil =>
    rw [List.append_nil]
    exact ⟨ht, h⟩
  | cons b record ih =>
    have hinsert := insert_exactly h (fun hplain c hc => hl hplain c (List.mem_append_left _ hc))
      (fun hplain => hl hplain b (by simp))
    have hcons : t ++ b :: record = t ++ [b] ++ record := List.append_cons t b record
    rw [hcons] at hl ⊢
    rw [List.foldlM_cons]
    have hrest := hinsert.bind fun ed' hp hed =>
      ih (Line.whole_insert t b ▸ hed) (by rw [List.length_append]; exact hp.2) hl
    refine hrest.congr ?_
    have hlen : (t ++ [b] ++ record).length = t.length + 1 + record.length := by
      rw [List.length_append, List.length_append, List.length_singleton]
    rw [whole_fits, hlen]
    dsimp only [Line.whole]
    omega

theorem replaceLine_exactly (h : Keeps plain prompt ed l) (hl : plain → ∀ c ∈ l.text, Printable c)
    {record : List Byte} (hr : plain → ∀ c ∈ record, Printable c) :
    Exactly (replaceLine ed record) (l.text.length ≤ 128 ∧ record.length ≤ 128)
      (Keeps plain prompt · (Line.whole record)) := by
  have hend := cursorEnd_keeps h
  have hcount : (linebufCursorEnd ed).lb.cursorPos = l.text.length := hend.cursor
  simp only [replaceLine, hcount]
  exact (delLoop_exactly hend hl).bind fun ed' _ hed =>
    insertAll_exactly record hed (Nat.zero_le _) hr

end

/-! ## The history -/

/-- What is brought back is a line of the history, and the lines stay. -/
def Recalls (h : History) (recalled : Option (List Byte) × History) : Prop :=
  recalled.2.lines = h.lines ∧ ∀ record, recalled.1 = some record → record ∈ h.lines

theorem linerecordPrev_recalls (h : History) : Recalls h (linerecordPrev h) := by
  rw [linerecordPrev]
  split
  · exact ⟨rfl, fun record hrec => Option.some.inj hrec ▸ List.get_mem _ _⟩
  · split
    · exact ⟨rfl, fun record hrec => Option.some.inj hrec ▸ List.get_mem _ _⟩
    · exact ⟨rfl, nofun⟩

theorem linerecordNext_recalls (h : History) : Recalls h (linerecordNext h) := by
  rw [linerecordNext]
  split
  · exact ⟨rfl, fun record hrec => Option.some.inj hrec ▸ List.get_mem _ _⟩
  · exact ⟨rfl, nofun⟩

theorem History.mem_of_mem_kept {h : History} {record : List Byte} (hmem : record ∈ h.kept) :
    record ∈ h.lines := by
  rw [kept] at hmem
  split at hmem
  · exact List.mem_of_mem_drop hmem
  · exact hmem

end SpringOs.Readline
