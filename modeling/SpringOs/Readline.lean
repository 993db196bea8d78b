import SpringOs.Kernel
import SpringOs.Lib.Terminal

/-!
The line editor of the kernel monitor (`kmon/readline.c`, `kmon/buffer.c`).

The line is kept in two buffers of 128 bytes. A cursor key moves only `cursor_pos` and the
cursor of the terminal; `linebuf_sync` moves the text between the buffers before the next
edit. Enter keeps the line in a history of four lines, which the up and down keys bring back.

* `linebufSync_spec`: after `linebuf_sync` the buffers part the text at the cursor;
* **`linebufInsert_spec`**, **`linebufDel_spec`**: the text after an edit, and what is printed.

What is printed is kept from the prompt on. The buffers are those `alloc_linebuf` returns: that
there is memory for them is taken for granted. A character is unsigned, as on arm64.
-/

namespace SpringOs.Readline
open Kernel Lib.Bytes Lib.Terminal
open Function (update update_of_ne)

/-! ## Buffers -/

structure Buffer where
  buf : Nat → Byte
  size : Nat
  curSize : Nat

def allocBuffer (size : Nat) : Buffer := ⟨fun _ => 0, size, 0⟩

def bufferClear (b : Buffer) : Buffer := { b with buf := fun _ => 0, curSize := 0 }

def Buffer.get (b : Buffer) (i : Nat) : Except Fault Byte :=
  if i < b.size then .ok (b.buf i) else .error .outOfBounds

def Buffer.set (b : Buffer) (i : Nat) (c : Byte) : Except Fault Buffer :=
  if i < b.size then .ok { b with buf := update b.buf i c } else .error .outOfBounds

/-- The first `n` characters of `f`. -/
def chars (f : Nat → Byte) (n : Nat) : List Byte := (List.range n).map f

/-- The characters below `cur_size`. -/
def Buffer.text (b : Buffer) : List Byte := chars b.buf b.curSize

variable {b : Buffer} {i n : Nat}

theorem Buffer.get_eq (h : i < b.size) : b.get i = .ok (b.buf i) :=
  if_pos h

theorem Buffer.set_eq (h : i < b.size) (c : Byte) :
    b.set i c = .ok { b with buf := update b.buf i c } :=
  if_pos h

@[simp] theorem length_chars (f : Nat → Byte) (n : Nat) : (chars f n).length = n := by
  simp [chars]

@[simp] theorem Buffer.length_text (b : Buffer) : b.text.length = b.curSize :=
  length_chars b.buf b.curSize

theorem chars_add (f : Nat → Byte) (m n : Nat) :
    chars f (m + n) = chars f m ++ chars (fun i => f (m + i)) n := by
  simp [chars, List.range_add]

theorem chars_congr {f g : Nat → Byte} (h : ∀ i < n, f i = g i) : chars f n = chars g n :=
  List.map_congr_left fun i hi => h i (List.mem_range.1 hi)

theorem take_chars (f : Nat → Byte) {m : Nat} (h : m ≤ n) : (chars f n).take m = chars f m := by
  obtain ⟨k, rfl⟩ := Nat.exists_eq_add_of_le h
  rw [chars_add, List.take_left' (length_chars f m)]

theorem drop_chars (f : Nat → Byte) {m : Nat} (h : m ≤ n) :
    (chars f n).drop m = chars (fun i => f (m + i)) (n - m) := by
  obtain ⟨k, rfl⟩ := Nat.exists_eq_add_of_le h
  rw [chars_add, List.drop_left' (length_chars f m), Nat.add_sub_cancel_left]

theorem chars_put_zero (f g : Nat → Byte) (n : Nat) : chars (put f 0 g n) n = chars g n :=
  chars_congr fun i hi => by
    have h := put_inside f 0 g hi
    rwa [Nat.zero_add] at h

theorem chars_put_end (f g : Nat → Byte) (m n : Nat) :
    chars (put f m g n) (m + n) = chars f m ++ chars g n := by
  rw [chars_add]
  congr 1
  · exact chars_congr fun i hi => put_outside f g (.inl hi)
  · exact chars_congr fun i hi => put_inside f m g hi

theorem chars_put_front (f g : Nat → Byte) (m n : Nat) :
    chars (put (put f m f n) 0 g m) (n + m) = chars g m ++ chars f n := by
  rw [Nat.add_comm, chars_add, chars_put_zero]
  congr 1
  refine chars_congr fun i hi => ?_
  rw [put_outside _ g (by omega), put_inside f m f hi]

/-! ## The loops that move text -/

/-- `for (i = n-1; i >= 0; i--) b[i+off] = b[i]` -/
def shiftUp (off : Nat) : Nat → Buffer → Except Fault Buffer
  | 0, b => .ok b
  | n + 1, b => do shiftUp off n (← b.set (n + off) (← b.get n))

/-- `for (; n > 0; i++, n--) b[i] = b[i+off]` -/
def shiftDown (off : Nat) : Nat → Nat → Buffer → Except Fault Buffer
  | 0, _, b => .ok b
  | n + 1, i, b => do shiftDown off n (i + 1) (← b.set i (← b.get (i + off)))

/-- `for (; n > 0; i++, j++, n--) dst[i] = src[j]` -/
def copyLoop (src : Buffer) : Nat → Nat → Nat → Buffer → Except Fault Buffer
  | 0, _, _, dst => .ok dst
  | n + 1, i, j, dst => do copyLoop src n (i + 1) (j + 1) (← dst.set i (← src.get j))

theorem shiftUp_eq {off : Nat} (h : off + n ≤ b.size) :
    shiftUp off n b = .ok { b with buf := put b.buf off b.buf n } := by
  induction n generalizing b with
  | zero => rw [shiftUp, put_zero]
  | succ n ih =>
    rw [shiftUp, Buffer.get_eq (by omega)]
    change (b.set (n + off) (b.buf n) >>= fun b => shiftUp off n b) = _
    rw [Buffer.set_eq (by omega)]
    refine (ih (by dsimp only; omega)).trans ?_
    -- what is still to be read lies below what has been written
    have hread : put (update b.buf (n + off) (b.buf n)) off
        (update b.buf (n + off) (b.buf n)) n =
          put (update b.buf (n + off) (b.buf n)) off b.buf n := by
      funext i
      rw [put, put]
      split
      · rw [update_of_ne (by omega)]
      · rfl
    dsimp only
    rw [hread, Nat.add_comm n off, put_snoc]

theorem shiftDown_eq {off : Nat} (h : i + off + n ≤ b.size) :
    shiftDown off n i b = .ok { b with buf := put b.buf i (fun k => b.buf (i + off + k)) n } := by
  induction n generalizing i b with
  | zero => rw [shiftDown, put_zero]
  | succ n ih =>
    rw [shiftDown, Buffer.get_eq (by omega)]
    change (b.set i (b.buf (i + off)) >>= fun b => shiftDown off n (i + 1) b) = _
    rw [Buffer.set_eq (by omega)]
    refine (ih (by dsimp only; omega)).trans ?_
    have hread : (fun k => update b.buf i (b.buf (i + off)) (i + 1 + off + k)) =
        fun k => b.buf (i + off + (k + 1)) := by
      funext k
      rw [update_of_ne (by omega)]
      congr 1
      omega
    dsimp only
    rw [hread]
    exact congrArg (fun buf => Except.ok { b with buf := buf })
      (put_cons b.buf i (fun k => b.buf (i + off + k)) n)

theorem copyLoop_eq {src dst : Buffer} {j : Nat} (hi : i + n ≤ dst.size) (hj : j + n ≤ src.size) :
    copyLoop src n i j dst =
      .ok { dst with buf := put dst.buf i (fun k => src.buf (j + k)) n } := by
  induction n generalizing i j dst with
  | zero => rw [copyLoop, put_zero]
  | succ n ih =>
    rw [copyLoop, Buffer.get_eq (by omega)]
    change (dst.set i (src.buf j) >>= fun dst => copyLoop src n (i + 1) (j + 1) dst) = _
    rw [Buffer.set_eq (by omega)]
    refine (ih (by dsimp only; omega) (by omega)).trans ?_
    have hread : (fun k => src.buf (j + 1 + k)) = fun k => src.buf (j + (k + 1)) := by
      funext k
      congr 1
      omega
    rw [hread]
    exact congrArg (fun buf => Except.ok { dst with buf := buf })
      (put_cons dst.buf i (fun k => src.buf (j + k)) n)

/-! ## The line and its cursor -/

structure Linebuf where
  lbuf : Buffer
  rbuf : Buffer
  cursorPos : Nat

def allocLinebuf : Linebuf := ⟨allocBuffer 128, allocBuffer 128, 0⟩

def linebufClear (lb : Linebuf) : Linebuf := ⟨bufferClear lb.lbuf, bufferClear lb.rbuf, 0⟩

/-- `lbuf[0..cur)` and behind it `rbuf[0..cur)`. -/
def Linebuf.text (lb : Linebuf) : List Byte := lb.lbuf.text ++ lb.rbuf.text

/-- The size of `linestr` and of each line of the history. -/
def buflen : Nat := 512

def linebufToStr (lb : Linebuf) : Except Fault (List Byte) :=
  if lb.lbuf.curSize + lb.rbuf.curSize < buflen then .ok lb.text
  else .error (.assertion .linebufToStr)

def linebufSync (lb : Linebuf) : Except Fault Linebuf :=
  if lb.cursorPos < lb.lbuf.curSize then do
    let off := lb.lbuf.curSize - lb.cursorPos
    let rbuf ← shiftUp off lb.rbuf.curSize lb.rbuf
    let rbuf ← copyLoop lb.lbuf off 0 lb.cursorPos rbuf
    return { lb with
      rbuf := { rbuf with curSize := rbuf.curSize + off }
      lbuf := { lb.lbuf with curSize := lb.lbuf.curSize - off } }
  else if lb.lbuf.curSize < lb.cursorPos then do
    let off := lb.cursorPos - lb.lbuf.curSize
    let lbuf ← copyLoop lb.rbuf off lb.lbuf.curSize 0 lb.lbuf
    let rbuf ← shiftDown off (lb.rbuf.curSize - off) 0 lb.rbuf
    return { lb with
      rbuf := { rbuf with curSize := rbuf.curSize - off }
      lbuf := { lbuf with curSize := lbuf.curSize + off } }
  else .ok lb

structure Editor where
  lb : Linebuf
  out : List Byte

def Editor.print (ed : Editor) (bytes : List Byte) : Editor := { ed with out := ed.out ++ bytes }

/-- `if (n > 0) cursorforwd(n)` -/
def forwd (n : Nat) : List Byte := if 0 < n then forward n else []

/-- `if (n > 0) cursorbackwd(n)` -/
def backwd (n : Nat) : List Byte := if 0 < n then backward n else []

def backspace (n : Nat) : List Byte := (List.replicate n rub).flatten

def linebufCursorInc (ed : Editor) : Editor :=
  if ed.lb.cursorPos < ed.lb.rbuf.curSize + ed.lb.lbuf.curSize then
    Editor.print { ed with lb.cursorPos := ed.lb.cursorPos + 1 } (forward 1)
  else ed

def linebufCursorDec (ed : Editor) : Editor :=
  if 0 < ed.lb.cursorPos then
    Editor.print { ed with lb.cursorPos := ed.lb.cursorPos - 1 } (backward 1)
  else ed

def linebufCursorEnd (ed : Editor) : Editor :=
  if ed.lb.cursorPos < ed.lb.rbuf.curSize + ed.lb.lbuf.curSize then
    linebufCursorEnd
      (Editor.print { ed with lb.cursorPos := ed.lb.cursorPos + 1 } (forward 1))
  else ed
termination_by ed.lb.rbuf.curSize + ed.lb.lbuf.curSize - ed.lb.cursorPos
decreasing_by
  simp only [Editor.print]
  omega

def linebufInsert (ed : Editor) (c : Byte) : Except Fault Editor := do
  let lb ← linebufSync ed.lb
  if lb.lbuf.curSize = lb.cursorPos then
    let lbuf ← lb.lbuf.set lb.lbuf.curSize c
    let lb : Linebuf :=
      ⟨{ lbuf with curSize := lbuf.curSize + 1 }, lb.rbuf, lb.cursorPos + 1⟩
    return Editor.print { ed with lb } ([c] ++ lb.rbuf.text ++ backwd lb.rbuf.curSize)
  else throw (.assertion .linebufInsert)

def linebufDel (ed : Editor) : Except Fault Editor := do
  let lb ← linebufSync ed.lb
  if lb.lbuf.curSize = lb.cursorPos then
    if 0 < lb.cursorPos then
      let lb : Linebuf :=
        ⟨{ lb.lbuf with curSize := lb.lbuf.curSize - 1 }, lb.rbuf, lb.cursorPos - 1⟩
      return Editor.print { ed with lb }
        (forwd lb.rbuf.curSize ++ backspace (lb.rbuf.curSize + 1) ++ lb.rbuf.text ++
          backwd lb.rbuf.curSize)
    else return { ed with lb }
  else throw (.assertion .linebufDel)

/-! ## What an edit does to the text -/

/-- Either buffer has room for its side of the cursor, and for what it holds now. -/
structure Within (lb : Linebuf) : Prop where
  cursor : lb.cursorPos ≤ lb.text.length
  lfits : lb.lbuf.curSize ≤ lb.lbuf.size
  rfits : lb.rbuf.curSize ≤ lb.rbuf.size
  left : lb.cursorPos ≤ lb.lbuf.size
  right : lb.text.length - lb.cursorPos ≤ lb.rbuf.size

/-- The two buffers of `lb'` hold the text `l ++ r`, and `cursor_pos` is where they part. -/
structure Parted (lb lb' : Linebuf) (l r : List Byte) : Prop where
  left : lb'.lbuf.text = l
  right : lb'.rbuf.text = r
  cursor : lb'.cursorPos = l.length
  lsize : lb'.lbuf.size = lb.lbuf.size
  rsize : lb'.rbuf.size = lb.rbuf.size

theorem Parted.curSize {lb lb' : Linebuf} {l r : List Byte} (h : Parted lb lb' l r) :
    lb'.lbuf.curSize = lb'.cursorPos := by
  rw [h.cursor, ← h.left, Buffer.length_text]

theorem length_text (lb : Linebuf) : lb.text.length = lb.lbuf.curSize + lb.rbuf.curSize := by
  simp [Linebuf.text]

theorem linebufSync_left {lb : Linebuf} (h : Within lb) (hlt : lb.cursorPos < lb.lbuf.curSize) :
    ∃ lb', linebufSync lb = .ok lb' ∧
      Parted lb lb' (lb.text.take lb.cursorPos) (lb.text.drop lb.cursorPos) := by
  obtain ⟨lbuf, rbuf, pos⟩ := lb
  obtain ⟨-, hl, -, -, hr⟩ := h
  rw [length_text] at hr
  dsimp only at hl hr hlt
  simp only [linebufSync, if_pos hlt]
  rw [shiftUp_eq (by omega)]
  simp only [bind, Except.bind]
  rw [copyLoop_eq (by dsimp only; omega) (by omega)]
  refine ⟨_, rfl, ?_⟩
  have htake : (lbuf.text ++ rbuf.text).take pos = chars lbuf.buf pos := by
    rw [List.take_append_of_le_length (by simp; omega)]
    exact take_chars _ (Nat.le_of_lt hlt)
  have hdrop : (lbuf.text ++ rbuf.text).drop pos =
      chars (fun i => lbuf.buf (pos + i)) (lbuf.curSize - pos) ++ rbuf.text := by
    rw [List.drop_append_of_le_length (by simp; omega)]
    exact congrArg (· ++ rbuf.text) (drop_chars _ (Nat.le_of_lt hlt))
  constructor
  · refine Eq.trans ?_ htake.symm
    rw [Buffer.text]
    dsimp only
    rw [Nat.sub_sub_self (Nat.le_of_lt hlt)]
  · exact (chars_put_front rbuf.buf _ _ rbuf.curSize).trans hdrop.symm
  · rw [Linebuf.text, htake, length_chars]
  · rfl
  · rfl

theorem linebufSync_right {lb : Linebuf} (h : Within lb) (hlt : lb.lbuf.curSize < lb.cursorPos) :
    ∃ lb', linebufSync lb = .ok lb' ∧
      Parted lb lb' (lb.text.take lb.cursorPos) (lb.text.drop lb.cursorPos) := by
  obtain ⟨lbuf, rbuf, pos⟩ := lb
  obtain ⟨hpos, -, hr, hl, -⟩ := h
  rw [length_text] at hpos
  dsimp only at hpos hl hr hlt
  simp only [linebufSync, if_neg (Nat.lt_asymm hlt), if_pos hlt]
  rw [copyLoop_eq (by omega) (by omega)]
  simp only [bind, Except.bind]
  rw [shiftDown_eq (by omega)]
  refine ⟨_, rfl, ?_⟩
  have htake : (lbuf.text ++ rbuf.text).take pos =
      lbuf.text ++ chars rbuf.buf (pos - lbuf.curSize) := by
    rw [List.take_append, List.take_of_length_le (by simp; omega), Buffer.length_text]
    exact congrArg (lbuf.text ++ ·) (take_chars _ (by omega))
  have hdrop : (lbuf.text ++ rbuf.text).drop pos =
      chars (fun i => rbuf.buf (pos - lbuf.curSize + i)) (rbuf.curSize - (pos - lbuf.curSize)) := by
    rw [List.drop_append, List.drop_of_length_le (by simp; omega), Buffer.length_text,
      List.nil_append]
    exact drop_chars _ (by omega)
  constructor
  · simp only [Nat.zero_add]
    exact (chars_put_end lbuf.buf rbuf.buf _ _).trans htake.symm
  · simp only [Nat.zero_add]
    exact (chars_put_zero rbuf.buf _ _).trans hdrop.symm
  · rw [Linebuf.text, htake, List.length_append, length_chars, Buffer.length_text]
    dsimp only
    omega
  · rfl
  · rfl

theorem linebufSync_spec {lb : Linebuf} (h : Within lb) :
    ∃ lb', linebufSync lb = .ok lb' ∧
      Parted lb lb' (lb.text.take lb.cursorPos) (lb.text.drop lb.cursorPos) := by
  rcases Nat.lt_trichotomy lb.cursorPos lb.lbuf.curSize with hlt | heq | hgt
  · exact linebufSync_left h hlt
  · refine ⟨lb, ?_, ?_⟩
    · rw [linebufSync, if_neg (by omega), if_neg (by omega)]
    · have hlen : lb.lbuf.text.length = lb.cursorPos := by rw [Buffer.length_text, heq]
      refine ⟨(List.take_left' hlen).symm, (List.drop_left' hlen).symm, ?_, rfl, rfl⟩
      rw [List.length_take_of_le h.cursor]
  · exact linebufSync_right h hgt

theorem linebufInsert_spec {ed : Editor} (h : Within ed.lb)
    (hroom : ed.lb.cursorPos < ed.lb.lbuf.size) (c : Byte) :
    ∃ lb', linebufInsert ed c = .ok ⟨lb', ed.out ++
        ([c] ++ ed.lb.text.drop ed.lb.cursorPos ++
          backwd (ed.lb.text.drop ed.lb.cursorPos).length)⟩ ∧
      Parted ed.lb lb' (ed.lb.text.take ed.lb.cursorPos ++ [c])
        (ed.lb.text.drop ed.lb.cursorPos) := by
  obtain ⟨lb, hsync, hp⟩ := linebufSync_spec h
  have hcur := hp.curSize
  have hfree : lb.lbuf.curSize < lb.lbuf.size := by
    rwa [hcur, hp.cursor, List.length_take_of_le h.cursor, hp.lsize]
  simp only [linebufInsert, hsync, bind, Except.bind, if_pos hcur, Buffer.set_eq hfree]
  refine ⟨⟨⟨update lb.lbuf.buf lb.lbuf.curSize c, lb.lbuf.size, lb.lbuf.curSize + 1⟩,
    lb.rbuf, lb.cursorPos + 1⟩, ?_, ?_⟩
  · rw [← hp.right, Buffer.length_text]
    rfl
  · refine ⟨?_, hp.right, ?_, hp.lsize, hp.rsize⟩
    · rw [← hp.left, Buffer.text, Buffer.text, chars_add]
      congr 1
      · exact chars_congr fun i hi => update_of_ne (by omega) _ _
      · simp [chars]
    · rw [List.length_append, ← hp.cursor]
      rfl

theorem linebufDel_spec {ed : Editor} (h : Within ed.lb) (hpos : 0 < ed.lb.cursorPos) :
    ∃ lb', linebufDel ed = .ok ⟨lb', ed.out ++
        (forwd (ed.lb.text.drop ed.lb.cursorPos).length ++
          backspace ((ed.lb.text.drop ed.lb.cursorPos).length + 1) ++
          ed.lb.text.drop ed.lb.cursorPos ++
          backwd (ed.lb.text.drop ed.lb.cursorPos).length)⟩ ∧
      Parted ed.lb lb' (ed.lb.text.take (ed.lb.cursorPos - 1))
        (ed.lb.text.drop ed.lb.cursorPos) := by
  obtain ⟨lb, hsync, hp⟩ := linebufSync_spec h
  have hcut := h.cursor
  have hcur := hp.curSize
  have hsame : lb.cursorPos = ed.lb.cursorPos := by
    rw [hp.cursor, List.length_take_of_le hcut]
  have hpos' : 0 < lb.cursorPos := by omega
  simp only [linebufDel, hsync, bind, Except.bind, if_pos hcur, if_pos hpos']
  refine ⟨⟨{ lb.lbuf with curSize := lb.lbuf.curSize - 1 }, lb.rbuf, lb.cursorPos - 1⟩, ?_, ?_⟩
  · rw [← hp.right, Buffer.length_text]
    rfl
  · refine ⟨?_, hp.right, ?_, hp.lsize, hp.rsize⟩
    · have htake : ed.lb.text.take (ed.lb.cursorPos - 1) =
          (ed.lb.text.take ed.lb.cursorPos).take (ed.lb.cursorPos - 1) := by
        rw [List.take_take, Nat.min_eq_left (Nat.sub_le _ _)]
      rw [htake, ← hp.left, Buffer.text, Buffer.text, hcur, hsame, take_chars _ (Nat.sub_le _ _)]
    · rw [List.length_take_of_le (by omega)]
      dsimp only
      omega

theorem linebufDel_start {ed : Editor} (h : Within ed.lb) (hpos : ed.lb.cursorPos = 0) :
    ∃ lb', linebufDel ed = .ok { ed with lb := lb' } ∧ Parted ed.lb lb' [] ed.lb.text := by
  obtain ⟨lb, hsync, hp⟩ := linebufSync_spec h
  rw [hpos, List.take_zero, List.drop_zero] at hp
  have hcur := hp.curSize
  have hstay : ¬ 0 < lb.cursorPos := by
    rw [hp.cursor]
    exact Nat.lt_irrefl 0
  simp only [linebufDel, hsync, bind, Except.bind, if_pos hcur, if_neg hstay]
  exact ⟨lb, rfl, hp⟩

/-! ## The history -/

def maxRecord : Nat := 4

/-- The lines kept, the oldest first: `record_windex` is their number. -/
structure History where
  lines : List (List Byte)
  rindex : Int
  length_le : lines.length ≤ maxRecord
  rindex_lt : rindex < lines.length

def History.empty : History := ⟨[], -1, by decide, by decide⟩

/-- `linerecord[i]` -/
def History.record (h : History) (i : Int) (hlow : 0 ≤ i) (hhigh : i < h.lines.length) :
    List Byte :=
  h.lines.get ⟨i.toNat, by omega⟩

def linerecordPrev (h : History) : Option (List Byte) × History :=
  if hzero : h.rindex = 0 then
    (some (h.record h.rindex (by omega) h.rindex_lt), h)
  else if hpos : 0 < h.rindex then
    (some (h.record h.rindex (by omega) h.rindex_lt),
      { h with rindex := h.rindex - 1, rindex_lt := by have := h.rindex_lt; omega })
  else (none, h)

/-- `if (rindex == windex-1) rindex--` -/
def stepBack (windex : Nat) (rindex : Int) : Int :=
  if rindex = windex - 1 then rindex - 1 else rindex

theorem stepBack_lt {windex : Nat} {rindex : Int} (h : rindex < windex) :
    stepBack windex rindex + 1 < windex := by
  rw [stepBack]
  split <;> omega

def linerecordNext (h : History) : Option (List Byte) × History :=
  have hlt := stepBack_lt h.rindex_lt
  if hpos : 0 ≤ stepBack h.lines.length h.rindex then
    (some (h.record (stepBack h.lines.length h.rindex + 1) (by omega) hlt),
      { h with
        rindex := stepBack h.lines.length (stepBack h.lines.length h.rindex + 1)
        rindex_lt := by have := stepBack_lt hlt; omega })
  else
    (none,
      { h with
        rindex := stepBack h.lines.length (stepBack h.lines.length h.rindex)
        rindex_lt := by
          have := stepBack_lt (Int.lt_trans (Int.lt_succ _) hlt)
          omega })

/-- The lines that stay when one is added. -/
def History.kept (h : History) : List (List Byte) :=
  if maxRecord ≤ h.lines.length then h.lines.drop 1 else h.lines

theorem History.length_kept (h : History) : h.kept.length < maxRecord := by
  have hle := h.length_le
  rw [kept]
  split
  · rw [List.length_drop, maxRecord] at *
    omega
  · omega

/-- `strcpy` stops at the first NUL. -/
def linerecordAdd (h : History) (item : List Byte) : History where
  lines := h.kept ++ [item.takeWhile (· ≠ 0)]
  rindex := h.kept.length
  length_le := by
    rw [List.length_append]
    exact h.length_kept
  rindex_lt := by
    rw [List.length_append, List.length_singleton]
    omega

/-! ## Keys -/

structure State where
  ed : Editor
  hist : History
  linestr : List Byte

def delLoop : Nat → Editor → Except Fault Editor
  | 0, ed => .ok ed
  | n + 1, ed => do delLoop n (← linebufDel ed)

/-- What the up and down keys do when there is such a line. -/
def replaceLine (ed : Editor) (record : List Byte) : Except Fault Editor := do
  let ed := linebufCursorEnd ed
  record.foldlM linebufInsert (← delLoop ed.lb.cursorPos ed)

def arrowLeft : Nat := 1000
def arrowRight : Nat := 1001
def arrowUp : Nat := 1002
def arrowDown : Nat := 1003

def recallLine (s : State) (recalled : Option (List Byte) × History) :
    Except Fault State :=
  match recalled with
  | (some record, hist) => do return { s with ed := ← replaceLine s.ed record, hist }
  | (none, hist) => .ok { s with hist }

/-- One turn of the loop of `readline`: the state, and whether the loop goes on. -/
def readlineKey (s : State) (c : Nat) : Except Fault (State × Bool) :=
  if c = 8 ∨ c = 127 then do
    return ({ s with ed := ← linebufDel s.ed }, true)
  else if c = 10 ∨ c = 13 then do
    let str ← linebufToStr s.ed.lb
    return (⟨s.ed.print [10], linerecordAdd s.hist str, str⟩, false)
  else if c = arrowLeft then .ok ({ s with ed := linebufCursorDec s.ed }, true)
  else if c = arrowRight then .ok ({ s with ed := linebufCursorInc s.ed }, true)
  else if c = arrowUp then do return (← recallLine s (linerecordPrev s.hist), true)
  else if c = arrowDown then do return (← recallLine s (linerecordNext s.hist), true)
  else if c = 3 then .ok ({ s with ed := s.ed.print [94, 67, 10] }, false)
  else if c = 5 then .ok ({ s with ed := linebufCursorEnd s.ed }, true)
  else if 32 ≤ c then do
    return ({ s with ed := ← linebufInsert s.ed (.ofNat 8 c) }, true)
  -- the message of the log is not part of the line
  else .ok (s, false)

/-- `printf("%s", s)`: `fmt_s` asserts that `s` is not empty, and the buffer of `printf` has
4095 bytes beside the NUL. -/
def printfS (s : List Byte) : Except Fault (List Byte) :=
  if s = [] then .error (.assertion .fmtS) else .ok (s.take 4095)

/-- A call of `readline` up to its first key, with the buffers as the last one cleared them. -/
def readlineStart (prompt : List Byte) (s : State) : Except Fault State := do
  return { s with ed := ⟨linebufClear s.ed.lb, ← printfS prompt⟩ }

/-- One key. When it ends the line, the next call of `readline` begins. -/
def pressKey (prompt : List Byte) (s : State) (c : Nat) : Except Fault State := do
  match ← readlineKey s c with
  | (s, true) => return s
  | (s, false) => readlineStart prompt s

def boot : State := ⟨⟨allocLinebuf, []⟩, History.empty, []⟩

/-- The keys pressed since the kernel started. -/
def session (prompt : List Byte) (codes : List Nat) : Except Fault State := do
  codes.foldlM (pressKey prompt) (← readlineStart prompt boot)

end SpringOs.Readline
