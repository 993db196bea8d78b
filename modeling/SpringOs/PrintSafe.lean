import SpringOs.Lib.Machine
import SpringOs.Print

/-!
When a call of `vsnprintf` keeps to its buffers.

* `vsnprintfLoop_eq`: the loop writes the pieces of the format one after another;
* `Matching.pieces_eq`: it ends, whatever the format;
* **`vsnprintf_eq`**: the text, when nothing trips;
* **`vsnprintf_safe_iff`**: what trips it. An empty string fails an assertion, a width above 32
  overruns a scratch array, an `l` at the end steps over the NUL of the format, and a pointer
  with one byte left puts the last NUL behind the buffer.
-/

namespace SpringOs.Print
open Kernel Lib.Word Lib.Bytes

variable {ap : List Arg} {ps : List Piece} {bound : Nat} {fmt : List Byte}

/-! ## The pieces of a format -/

def pieceLoop : Nat → List Byte → List Arg → Except Fault (List Piece)
  | 0, _, _ => .error .hang
  | _ + 1, [], _ => .ok []
  | fuel + 1, c :: fmt, ap =>
    if c = 37 then do
      match ← nextPiece fmt ap with
      | none => return []
      | some (p, fmt, ap) => return p :: (← pieceLoop fuel fmt ap)
    else do return .lit c :: (← pieceLoop fuel fmt ap)

def pieces (fmt : CString) (ap : List Arg) : Except Fault (List Piece) :=
  pieceLoop (fmt.chars.length + 1) fmt.chars ap

def Matching (fmt : CString) (ap : List Arg) : Prop := pieces fmt ap ≠ .error .wildAccess

theorem Matching.of_eq {fmt : CString} (h : pieces fmt ap = .ok ps) : Matching fmt ap := by
  rw [Matching, h]
  exact nofun

theorem length_flagLoop (fmt : List Byte) (zeropad minus : Bool) :
    (flagLoop fmt zeropad minus).2.2.length ≤ fmt.length := by
  induction fmt generalizing zeropad minus with
  | nil => exact Nat.le_refl _
  | cons c fmt ih =>
    rw [flagLoop]
    split
    · exact (ih _ _).trans (Nat.le_succ _)
    · split
      · exact (ih _ _).trans (Nat.le_succ _)
      · exact Nat.le_refl _

theorem length_widthLoop (fmt : List Byte) (minw : Int) :
    (widthLoop fmt minw).2.length ≤ fmt.length := by
  induction fmt generalizing minw with
  | nil => exact Nat.le_refl _
  | cons c fmt ih =>
    rw [widthLoop]
    split
    · exact (ih _).trans (Nat.le_succ _)
    · exact Nat.le_refl _

theorem length_field (fmt : List Byte) : (field fmt).2.length ≤ fmt.length :=
  (length_widthLoop _ 0).trans (length_flagLoop fmt false false)

/-- A conversion takes characters away from the format; all it can miss is its argument. -/
def Reads (bound : Nat) : Except Fault (Option Next) → Prop
  | .error e => e = .wildAccess
  | .ok none => True
  | .ok (some (_, fmt, _)) => fmt.length ≤ bound

theorem Reads.ite {c : Prop} [Decidable c] {x y : Except Fault (Option Next)} (hx : Reads bound x)
    (hy : Reads bound y) : Reads bound (if c then x else y) := by
  split
  · exact hx
  · exact hy

theorem vaWord_reads (h : fmt.length ≤ bound) (p : BitVec 64 → Piece) (ap : List Arg) :
    Reads bound (do
      let (v, ap) ← vaWord ap
      return some (p v, fmt, ap)) := by
  cases ap with
  | nil => rfl
  | cons a ap =>
    cases a with
    | word v => exact h
    | str s => rfl

theorem vaStr_reads (h : fmt.length ≤ bound) (p : CString → Piece) (ap : List Arg) :
    Reads bound (do
      let (s, ap) ← vaStr ap
      return some (p s, fmt, ap)) := by
  cases ap with
  | nil => rfl
  | cons a ap =>
    cases a with
    | word v => rfl
    | str s => exact h

theorem longPiece_reads (h : fmt.length ≤ bound) (f : Field) (ap : List Arg) :
    Reads bound (longPiece f fmt ap) := by
  cases fmt with
  | nil => exact Nat.zero_le bound
  | cons c fmt =>
    have hrest : fmt.length ≤ bound := (Nat.le_succ _).trans h
    have hnum : ∀ k, Reads bound (numPiece k f fmt ap) := fun k => vaWord_reads hrest _ ap
    exact (hnum .ld).ite ((hnum .lx).ite ((hnum .lUpperX).ite ((hnum .lu).ite hrest)))

theorem switchPiece_reads (h : fmt.length ≤ bound) (f : Field) (ap : List Arg) :
    Reads bound (switchPiece f fmt ap) := by
  cases fmt with
  | nil => trivial
  | cons c fmt =>
    have hrest : fmt.length ≤ bound := (Nat.le_succ _).trans h
    have hword := fun p => vaWord_reads hrest p ap
    have hnum : ∀ k, Reads bound (numPiece k f fmt ap) := fun k => hword _
    have hskip : Reads bound (.ok (some (.skip, fmt, ap))) := hrest
    refine (hword .char).ite ((longPiece_reads hrest f ap).ite ?_)
    refine (hnum .d).ite ((hnum .u).ite ((hnum .x).ite ((hnum .upperX).ite ?_)))
    exact (hword .ptr).ite ((vaStr_reads hrest (.str f) ap).ite (hskip.ite trivial))

theorem nextPiece_reads (fmt : List Byte) (ap : List Arg) :
    Reads fmt.length (nextPiece fmt ap) :=
  switchPiece_reads (length_field fmt) _ ap

theorem pieceLoop_error {fuel : Nat} (h : fmt.length < fuel) {e : Fault}
    (he : pieceLoop fuel fmt ap = .error e) : e = .wildAccess := by
  induction fuel generalizing fmt ap with
  | zero => omega
  | succ fuel ih =>
    have hrest : ∀ {p : Piece} {fmt : List Byte} {ap : List Arg}, fmt.length < fuel →
        (do return p :: (← pieceLoop fuel fmt ap)) = Except.error e → e = .wildAccess := by
      intro p fmt ap hlt heq
      cases hloop : pieceLoop fuel fmt ap with
      | ok ps =>
        rw [hloop] at heq
        cases heq
      | error e' =>
        rw [hloop] at heq
        cases heq
        exact ih hlt hloop
    cases fmt with
    | nil => cases he
    | cons c fmt =>
      rw [List.length_cons] at h
      have hreads := nextPiece_reads fmt ap
      rw [pieceLoop] at he
      split at he
      · cases hnext : nextPiece fmt ap with
        | error e' =>
          rw [hnext] at he hreads
          cases he
          exact hreads
        | ok next =>
          rw [hnext] at he hreads
          cases next with
          | none => cases he
          | some next => exact hrest (Nat.lt_of_le_of_lt hreads (by omega)) he
      · exact hrest (by omega) he

/-- Matching arguments give the pieces of the format: the loop always ends. -/
theorem Matching.pieces_eq {fmt : CString} (h : Matching fmt ap) :
    ∃ ps, pieces fmt ap = .ok ps := by
  cases hps : pieces fmt ap with
  | ok ps => exact ⟨ps, rfl⟩
  | error e =>
    rw [pieceLoop_error (Nat.lt_succ_self _) hps] at hps
    exact absurd hps h

theorem vsnprintfLoop_eq {fuel : Nat} (h : pieceLoop fuel fmt ap = .ok ps) (out : Sink) :
    vsnprintfLoop fuel out fmt ap = putPieces out ps := by
  induction fuel generalizing out fmt ap ps with
  | zero => cases h
  | succ fuel ih =>
    cases fmt with
    | nil =>
      cases h
      rfl
    | cons c fmt =>
      rw [pieceLoop] at h
      rw [vsnprintfLoop]
      split at h
      · rename_i hc
        cases hnext : nextPiece fmt ap with
        | error e =>
          rw [hnext] at h
          cases h
        | ok next =>
          rw [hnext] at h
          cases next with
          | none =>
            cases h
            rw [if_pos hc]
            split <;> rfl
          | some next =>
            obtain ⟨p, fmt', ap'⟩ := next
            change (do return p :: (← pieceLoop fuel fmt' ap')) = .ok ps at h
            obtain ⟨rest, hrest, hps⟩ := Lib.Machine.ok_of_bind h
            cases hps
            rw [if_pos hc, putPieces]
            split
            · change (putPiece out p >>= fun out => vsnprintfLoop fuel out fmt' ap') = _
              simp only [ih hrest]
            · rfl
      · rename_i hc
        obtain ⟨rest, hrest, hps⟩ := Lib.Machine.ok_of_bind h
        cases hps
        rw [if_neg hc, putPieces]
        simp only [ih hrest]
        rfl

/-- **The text**, cut off in front of the last byte. -/
theorem vsnprintf_eq {size : Nat} (hsize : 1 ≤ size) {fmt : CString} (hps : pieces fmt ap = .ok ps)
    (hclean : clean (size - 1) ps = true) :
    vsnprintf size fmt ap =
      .ok ((ps.flatMap Piece.text).take (size - 1) ++ [0],
        i32 ((ps.flatMap Piece.text).take (size - 1)).length) := by
  have hrun : vsnprintfLoop (fmt.chars.length + 1) ⟨size, []⟩ fmt.chars ap =
      .ok ⟨size, (ps.flatMap Piece.text).take (size - 1)⟩ := by
    rw [vsnprintfLoop_eq hps, putPieces_of_clean]
    · rfl
    · exact hclean
  have hnul : Sink.put ⟨size, (ps.flatMap Piece.text).take (size - 1)⟩ 0 =
      .ok ⟨size, (ps.flatMap Piece.text).take (size - 1) ++ [0]⟩ := by
    rw [Sink.put, if_pos]
    rw [List.length_take]
    dsimp only
    omega
  rw [vsnprintf, hrun]
  change (Sink.put ⟨size, (ps.flatMap Piece.text).take (size - 1)⟩ 0 >>= fun buf => _) = _
  rw [hnul]
  rfl

theorem vsnprintf_trips {size : Nat} {fmt : CString} (hps : pieces fmt ap = .ok ps)
    (hclean : clean (size - 1) ps = false) (r : List Byte × Int) :
    vsnprintf size fmt ap ≠ .ok r := by
  intro hrun
  obtain ⟨out, hloop, hend⟩ := Lib.Machine.ok_of_bind hrun
  obtain ⟨buf, hput, -⟩ := Lib.Machine.ok_of_bind hend
  rw [vsnprintfLoop_eq hps] at hloop
  have hstart : clean (Sink.room ⟨size, []⟩) ps = false := hclean
  have hlen := putPieces_trips hstart hloop
  rw [Sink.put, if_neg (by omega)] at hput
  cases hput

/-- The call returns, with the NUL behind a text that keeps to the buffer and its length as the
result, exactly if no piece trips and the length is an `int`. -/
theorem vsnprintf_safe_iff {size : Nat} (hsize : 1 ≤ size) {fmt : CString} {ap : List Arg}
    (hargs : Matching fmt ap) :
    ∃ ps, pieces fmt ap = .ok ps ∧
      ((∃ text : List Byte, vsnprintf size fmt ap = .ok (text ++ [0], (text.length : Int)) ∧
          text.length < size) ↔
        clean (size - 1) ps = true ∧ min (size - 1) (ps.flatMap Piece.text).length < 2 ^ 31) := by
  obtain ⟨ps, hps⟩ := hargs.pieces_eq
  refine ⟨ps, hps, ?_⟩
  cases hclean : clean (size - 1) ps with
  | false =>
    constructor
    · rintro ⟨text, hrun, -⟩
      exact absurd hrun (vsnprintf_trips hps hclean _)
    · rintro ⟨hfalse, -⟩
      cases hfalse
  | true =>
    have hrun := vsnprintf_eq hsize hps hclean
    rw [← List.length_take]
    constructor
    · rintro ⟨text, htext, -⟩
      rw [hrun] at htext
      obtain ⟨hbytes, hlen⟩ := Prod.mk.inj (Except.ok.inj htext)
      rw [(List.append_left_inj [0]).1 hbytes] at hlen ⊢
      refine ⟨rfl, ?_⟩
      unfold i32 at hlen
      omega
    · rintro ⟨-, hlen⟩
      refine ⟨(ps.flatMap Piece.text).take (size - 1), ?_, ?_⟩
      · rw [hrun, i32_of_lt (by omega) (by omega)]
      · rw [List.length_take]
        omega

/-- `%5d` of 42 in eight bytes: the text fits. -/
theorem vsnprintf_safe_number :
    Matching ⟨[37, 53, 100], by decide⟩ [.word 42] ∧
      ∃ text : List Byte, vsnprintf 8 ⟨[37, 53, 100], by decide⟩ [.word 42] =
          .ok (text ++ [0], (text.length : Int)) ∧ text.length < 8 := by
  have hpieces : pieces ⟨[37, 53, 100], by decide⟩ [.word 42] =
      .ok [.num .d ⟨false, false, 5⟩ 42] := rfl
  have hargs : Matching ⟨[37, 53, 100], by decide⟩ [.word 42] := .of_eq hpieces
  obtain ⟨ps, hps, hiff⟩ := vsnprintf_safe_iff (by decide : 1 ≤ 8) hargs
  rw [hpieces] at hps
  cases hps
  exact ⟨hargs, hiff.2 ⟨by decide +kernel, by decide +kernel⟩⟩

/-- `%s` of the empty string; `%33d`; `%l`; and `%p` in two bytes. -/
theorem vsnprintf_trips_four_ways :
    vsnprintf 16 ⟨[37, 115], by decide⟩ [.str ⟨[], by decide⟩] = .error (.assertion .fmtS) ∧
    vsnprintf 64 ⟨[37, 51, 51, 100], by decide⟩ [.word 42] = .error .outOfBounds ∧
    vsnprintf 16 ⟨[37, 108], by decide⟩ [] = .error .outOfBounds ∧
    vsnprintf 2 ⟨[37, 112], by decide⟩ [.word 42] = .error .outOfBounds :=
  ⟨rfl, rfl, rfl, rfl⟩

end SpringOs.Print
