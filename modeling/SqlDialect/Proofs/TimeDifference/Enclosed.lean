import SqlDialect.Proofs.TimeDifference.Step

/-!
# Differences that stand by themselves

The form written for a TIMESTAMPDIFF call is meant to stand by itself: its brackets, the subtraction and the factor
are code, and the parenthesis at its start is closed at its end. The arguments are trimmed before they are written.
Trimming takes away the line break at the end of a line comment, and then the parenthesis behind the argument falls
into the comment.

* `selfContained_iff`: what is written for a call stands by itself exactly if neither timestamp leaves a comment open.
-/

namespace SqlDialect.TimeDifference

/-- What is written for a call stands by itself. -/
structure SelfContained (d : TimeDifference) : Prop where
  /-- Whatever follows, the text around the two timestamps is code. -/
  added : ∃ fs ls, textOf fs = d.first ∧ textOf ls = d.last ∧ ∀ r, Reads d.render r (writtenPieces fs ls)
  /-- The parenthesis at the start is closed by the last character. -/
  closed : findClosing d.render 0 = some (d.render.length - 1)

/-! ## Arguments in front of a parenthesis -/

/-- What stands between a parenthesis and the one that closes it is balanced. -/
theorem parenthesis_pieces {T : Text} {start close : Nat} (hs : T[start]? = some '(')
    (hc : findClosing T start = some close) :
    ∃ q, nest [] q = some [] ∧ Text.slice T (start + 1) close = textOf q ∧ Reads (textOf q) [')'] q := by
  obtain ⟨q, d, hp, rfl, -, hq, hd⟩ := findClosing_split hs rfl hc
  obtain rfl := eq_of_openerOf? hd
  refine ⟨q, hq, ?_, reads_parenthesis (Reads.of_pieces hp) hq⟩
  rw [Text.slice, List.drop_take, Nat.add_sub_cancel_left, take_of_pieces hp rfl]

/-- A trimmed argument that leaves no comment open is balanced in front of any parenthesis. -/
theorem reads_trimmed {a r : Text} {qs : List Piece} (h : Reads a r qs) (hr : r ≠ []) (hn : nest [] qs = some [])
    (hopen : leavesCommentOpen (Text.trim a) = false) :
    ∃ ps, nest [] ps = some [] ∧ ∀ t, t.head? = some ')' → Reads (Text.trim a) t ps := by
  obtain ⟨ps, hps, hnest⟩ := nest_trim h hr hopen []
  rw [hn] at hnest
  exact ⟨ps, hnest, fun t ht => reads_closing hps hnest ht⟩

/-! ## The written form -/

/-- Balanced timestamps are closed in at the end of the written form. -/
theorem findClosing_render {d : TimeDifference} {fs ls : List Piece} (hf : nest [] fs = some [])
    (hl : nest [] ls = some []) (h : Reads d.render [] (writtenPieces fs ls)) :
    findClosing d.render 0 = some (d.render.length - 1) := by
  have ho : opening = '(' :: opening.tail := by decide +kernel
  have hc : closing = closing.dropLast ++ [')'] := by decide +kernel
  have hwritten : writtenPieces fs ls = [] ++ .code '(' :: (opening.tail.map .code ++ (ls ++ (middle.map .code ++
      (fs ++ closing.dropLast.map .code))) ++ [.code ')']) := by
    rw [writtenPieces]
    conv => lhs; rw [ho, hc]
    simp
  rw [Reads, List.append_nil, pieces_nil, List.append_nil, hwritten] at h
  refine (findClosing_last_iff (o := '(') h rfl rfl).mpr ?_
  have hopening : nest [] (opening.tail.map .code) = some ['(', '('] := by decide +kernel
  have hmiddle : nest ['(', '('] (middle.map .code) = some ['(', '('] := by decide +kernel
  have hclosing : nest ['(', '('] (closing.dropLast.map .code) = some [] := by decide +kernel
  rw [nest_append, hopening, Option.bind_some, nest_balanced_append hl, nest_append, hmiddle, Option.bind_some,
    nest_balanced_append hf, hclosing]

/-- **A difference stands by itself** exactly if neither timestamp leaves a comment open. The arguments may stand
between any two parentheses of any text. -/
theorem selfContained_iff {T call : Text} {start close : Nat} {d : TimeDifference} (hs : T[start]? = some '(')
    (hc : findClosing T start = some close) (hd : read call (Text.slice T (start + 1) close) = .ok d) :
    d.SelfContained ↔ leavesCommentOpen d.first = false ∧ leavesCommentOpen d.last = false := by
  constructor
  · rintro ⟨⟨fs, ls, hf, hl, h⟩, -⟩
    have hread := (h []).drop
    obtain ⟨x, hx⟩ := List.head?_eq_some_iff.mp head?_middle
    obtain ⟨y, hy⟩ := List.head?_eq_some_iff.mp head?_closing
    have hlast := hread.take
    have hfirst := hread.drop.drop.take
    rw [hl, textOf_append, textOf_map_code, hx] at hlast
    rw [hf, textOf_map_code, hy] at hfirst
    exact ⟨closed_of_parenthesis hfirst, closed_of_parenthesis hlast⟩
  · rintro ⟨hf, hl⟩
    -- the arguments are balanced pieces in front of a parenthesis
    obtain ⟨q, hq, hslice, hread⟩ := parenthesis_pieces hs hc
    rw [hslice] at hd
    obtain ⟨unit, first, last, hsplit, rfl, -, -, -⟩ := read_eq_ok_iff.mp hd
    obtain ⟨u, f, l, rfl, hfr, hlr, hfn, hln, -, -⟩ := reads_arguments hread hq hsplit
    obtain ⟨fs, hfs, hfirst⟩ := reads_trimmed hfr (by simp) hfn hf
    obtain ⟨ls, hls, hlast⟩ := reads_trimmed hlr (by simp) hln hl
    have hrender := reads_render (d := ⟨Text.trim unit, Text.trim first, Text.trim last⟩)
      (hfirst _ <| head?_append_some head?_closing ·) (hlast _ <| head?_append_some head?_middle ·)
    refine ⟨⟨fs, ls, ?_, ?_, hrender⟩, findClosing_render hfs hls (hrender [])⟩
    · exact (hfirst [')'] rfl).textOf_eq
    · exact (hlast [')'] rfl).textOf_eq

/-- A line comment at the end of an argument takes in the parentheses behind it, once its line break is trimmed. -/
theorem not_selfContained_comment :
    let T := "select timestampdiff(second, a, b # x\n)".toList
    let d : TimeDifference := ⟨"second".toList, "a".toList, "b # x".toList⟩
    T[20]? = some '(' ∧ findClosing T 20 = some 38 ∧ read [] (Text.slice T 21 38) = .ok d ∧
      d.render = "((julianday(b # x) - julianday(a)) * 86400)".toList ∧ findClosing d.render 0 = none ∧
      ¬ d.SelfContained := by
  intro T d
  have hopen : T[20]? = some '(' := by decide +kernel
  have hclose : findClosing T 20 = some 38 := by decide +kernel
  have hread : read [] (Text.slice T 21 38) = .ok d := eq_ok_of_toOption (by decide +kernel)
  refine ⟨hopen, hclose, hread, by decide +kernel, by decide +kernel, fun h => ?_⟩
  have hclosed := ((selfContained_iff hopen hclose hread).mp h).2
  have hleaves : leavesCommentOpen d.last = true := by decide +kernel
  rw [hleaves] at hclosed
  cases hclosed

end SqlDialect.TimeDifference
