import SqlDialect.Proofs.Bytes.Split

/-!
# The parts of a text

A text is cut at a separator wherever a reader from the left meets one as code and counts no open bracket in front of
it. The parts tell where that was. A part is read alone as it is read within the text, but for two dashes at its end,
which are a comment when nothing follows them; as no separator is met in a comment, a part is not cut again.

* `splitPieces_of_uncut`: pieces without a cut go to one part.
* `mem_cuts_splitPieces`: the cuts are those of a reader who counts brackets.
* `splitTopLevel_faithful`: joining the parts gives the text again, and a part is its own only part.
-/

namespace SqlDialect

/-! ## The depth behind pieces -/

/-- How many brackets are open behind some pieces, if `depth` are open before them. All kinds count alike, and closing
brackets without a partner leave the depth at zero. -/
def openBehind (depth : Nat) : List Piece → Nat
  | [] => depth
  | .region _ _ :: ps => openBehind depth ps
  | .code c :: ps => openBehind (if isOpener c then depth + 1 else if isCloser c then depth - 1 else depth) ps

theorem openBehind_append (depth : Nat) (ps qs : List Piece) :
    openBehind depth (ps ++ qs) = openBehind (openBehind depth ps) qs := by
  induction ps generalizing depth with
  | nil => rfl
  | cons p ps ih =>
    cases p with
    | region kind t => exact ih depth
    | code c => exact ih _

theorem openBehind_cons (depth : Nat) (p : Piece) (ps : List Piece) :
    openBehind depth (p :: ps) = openBehind (openBehind depth [p]) ps := openBehind_append depth [p] ps

/-! ## Cuts -/

/-- A separator stands between two parts where no bracket is open, unless it is a bracket itself. -/
structure Separates (sep : Char) (depth : Nat) : Prop where
  opener : isOpener sep = false
  closer : isCloser sep = false
  level : depth = 0

/-- None of the pieces stands between two parts, if `depth` brackets are open before them. -/
def Uncut (sep : Char) (depth : Nat) (ps : List Piece) : Prop :=
  ∀ ms ns, ps = ms ++ .code sep :: ns → ¬ Separates sep (openBehind depth ms)

section Cuts

variable {sep : Char} {depth : Nat} {p : Piece} {ps qs : List Piece}

theorem splitPieces_cut (h : Separates sep depth) (ps : List Piece) :
    splitPieces sep depth (.code sep :: ps) =
      ([], (splitPieces sep depth ps).1 :: (splitPieces sep depth ps).2) := by
  simp [splitPieces, h.opener, h.closer, h.level]

/-- A piece that is not cut at goes to the first part. -/
theorem splitPieces_cons (h : ¬ (p = .code sep ∧ Separates sep depth)) (ps : List Piece) :
    splitPieces sep depth (p :: ps) =
      (p.text ++ (splitPieces sep (openBehind depth [p]) ps).1, (splitPieces sep (openBehind depth [p]) ps).2) := by
  cases p with
  | region kind t => rfl
  | code c =>
    rw [splitPieces, openBehind, openBehind]
    by_cases ho : isOpener c = true
    · simp [ho, Piece.text]
    · by_cases hc : isCloser c = true
      · simp [ho, hc, Piece.text]
      · have hsep : ¬ (c = sep ∧ depth = 0) := by
          rintro ⟨rfl, hdepth⟩
          exact h ⟨rfl, by simpa using ho, by simpa using hc, hdepth⟩
        simp [ho, hc, hsep, Piece.text]

theorem Uncut.nil : Uncut sep depth [] := fun ms _ h => by simp at h

theorem uncut_cons :
    Uncut sep depth (p :: ps) ↔ ¬ (p = .code sep ∧ Separates sep depth) ∧ Uncut sep (openBehind depth [p]) ps := by
  constructor
  · intro h
    refine ⟨fun ⟨hp, hcut⟩ => h [] ps (by rw [hp]; rfl) hcut, fun ms ns hps => ?_⟩
    rw [← openBehind_cons]
    exact h (p :: ms) ns (by rw [hps]; rfl)
  · rintro ⟨hp, hps⟩ ms ns h
    cases ms with
    | nil =>
      rw [List.nil_append, List.cons.injEq] at h
      exact fun hcut => hp ⟨h.1, hcut⟩
    | cons m ms =>
      rw [List.cons_append, List.cons.injEq] at h
      obtain ⟨rfl, h⟩ := h
      rw [openBehind_cons]
      exact hps ms ns h

theorem uncut_of_not_mem (h : .code sep ∉ ps) (depth : Nat) : Uncut sep depth ps := fun ms ns hps =>
  absurd (by rw [hps]; simp) h

/-- **Pieces without a cut** go to one part, and the depth behind them decides what is cut next. -/
theorem splitPieces_of_uncut (h : Uncut sep depth ps) (qs : List Piece) :
    splitPieces sep depth (ps ++ qs) =
      (textOf ps ++ (splitPieces sep (openBehind depth ps) qs).1, (splitPieces sep (openBehind depth ps) qs).2) := by
  induction ps generalizing depth with
  | nil => rfl
  | cons p ps ih =>
    obtain ⟨hp, hps⟩ := uncut_cons.mp h
    rw [List.cons_append, splitPieces_cons hp, ih hps, ← openBehind_cons, textOf_cons, List.append_assoc]

theorem splitTopLevel_of_uncut {text : Text} (h : Uncut sep 0 (pieces text)) : splitTopLevel text sep = [text] := by
  have hsplit := splitPieces_of_uncut h []
  rw [List.append_nil, textOf_pieces] at hsplit
  rw [splitTopLevel, hsplit, splitPieces, List.append_nil]

/-! ## Where the cuts are -/

/-- The positions between the parts of a text that starts at position `start`. -/
def cuts (start : Nat) : List Text → List Nat
  | [] | [_] => []
  | part :: next :: parts => (start + part.length) :: cuts (start + part.length + 1) (next :: parts)

theorem cuts_append (start : Nat) (t part : Text) (parts : List Text) :
    cuts start ((t ++ part) :: parts) = cuts (start + t.length) (part :: parts) := by
  cases parts with
  | nil => rfl
  | cons next parts => rw [cuts, cuts, List.length_append, ← Nat.add_assoc]

/-- **The cuts** stand at the separators that a reader who counts brackets comes to at depth zero. -/
theorem mem_cuts_splitPieces {start i : Nat} :
    i ∈ cuts start ((splitPieces sep depth ps).1 :: (splitPieces sep depth ps).2) ↔
      ∃ ms ns, ps = ms ++ .code sep :: ns ∧ start + (textOf ms).length = i ∧ Separates sep (openBehind depth ms) := by
  induction ps generalizing depth start with
  | nil => simp [splitPieces, cuts]
  | cons p ps ih =>
    -- behind the first piece
    have hrest : ∀ {d : Nat}, openBehind depth [p] = d →
        (i ∈ cuts (start + p.text.length) ((splitPieces sep d ps).1 :: (splitPieces sep d ps).2) ↔
          ∃ ms ns, p :: ps = (p :: ms) ++ .code sep :: ns ∧ start + (textOf (p :: ms)).length = i ∧
            Separates sep (openBehind depth (p :: ms))) := fun {d} hd => by
      rw [ih]
      refine exists_congr fun ms => exists_congr fun ns => ?_
      rw [openBehind_cons, hd, textOf_cons, List.length_append, Nat.add_assoc, List.cons_append, List.cons.injEq,
        and_iff_right rfl]
    have hsplit : (∃ ms ns, p :: ps = ms ++ .code sep :: ns ∧ start + (textOf ms).length = i ∧
          Separates sep (openBehind depth ms)) ↔
        (p = .code sep ∧ start = i ∧ Separates sep depth) ∨
          ∃ ms ns, p :: ps = (p :: ms) ++ .code sep :: ns ∧ start + (textOf (p :: ms)).length = i ∧
            Separates sep (openBehind depth (p :: ms)) := by
      constructor
      · rintro ⟨ms, ns, h, hi, hcut⟩
        cases ms with
        | nil =>
          rw [List.nil_append, List.cons.injEq] at h
          exact Or.inl ⟨h.1, hi, hcut⟩
        | cons m ms =>
          obtain rfl : p = m := (List.cons.inj h).1
          exact Or.inr ⟨ms, ns, h, hi, hcut⟩
      · rintro (⟨rfl, hi, hcut⟩ | ⟨ms, ns, h, hi, hcut⟩)
        · exact ⟨[], ps, rfl, hi, hcut⟩
        · exact ⟨p :: ms, ns, h, hi, hcut⟩
    rw [hsplit]
    by_cases hcut : p = .code sep ∧ Separates sep depth
    · obtain ⟨rfl, hcut⟩ := hcut
      have hd : openBehind depth [.code sep] = depth := by simp [openBehind, hcut.opener, hcut.closer]
      rw [splitPieces_cut hcut, cuts, List.mem_cons, ← hrest hd]
      simp [Piece.text, hcut, eq_comm]
    · rw [splitPieces_cons hcut, cuts_append, hrest rfl]
      exact ⟨Or.inr, fun h => h.resolve_left fun h => hcut ⟨h.1, h.2.2⟩⟩

/-! ## The parts -/

/-- The parts of pieces are the runs of pieces between the cuts. -/
theorem splitPieces_parts (sep : Char) (depth : Nat) (ps : List Piece) :
    ∃ (q : List Piece) (qs : List (List Piece)), ps = q ++ qs.flatMap (.code sep :: ·) ∧
      splitPieces sep depth ps = (textOf q, qs.map textOf) ∧ Uncut sep depth q ∧ ∀ x ∈ qs, Uncut sep 0 x := by
  induction ps generalizing depth with
  | nil => exact ⟨[], [], rfl, rfl, Uncut.nil, by simp⟩
  | cons p ps ih =>
    by_cases hcut : p = .code sep ∧ Separates sep depth
    · obtain ⟨rfl, hcut⟩ := hcut
      obtain rfl := hcut.level
      obtain ⟨q, qs, rfl, hsplit, hq, hqs⟩ := ih 0
      exact ⟨[], q :: qs, rfl, by rw [splitPieces_cut hcut, hsplit]; rfl, Uncut.nil, List.forall_mem_cons.mpr ⟨hq, hqs⟩⟩
    · obtain ⟨q, qs, rfl, hsplit, hq, hqs⟩ := ih (openBehind depth [p])
      exact ⟨p :: q, qs, rfl, by rw [splitPieces_cons hcut, hsplit]; rfl, uncut_cons.mpr ⟨hcut, hq⟩, hqs⟩

/-- What is not cut in front of another text is not cut alone. -/
theorem Reads.uncut_alone {a r : Text} (h : Reads a r ps) (hps : Uncut sep depth ps) : Uncut sep depth (pieces a) := by
  rcases h.alone with he | ⟨ms, rfl, he⟩
  · rwa [he]
  · rw [he]
    intro xs ns hxs
    -- the comment is behind every separator
    rcases append_eq_append_cons hxs with ⟨ys, -, hys⟩ | ⟨ys, rfl, -⟩
    · cases ys with
      | nil => simp at hys
      | cons y ys => simp at hys
    · exact hps xs (ys ++ [.code '-', .code '-']) (by simp)

/-- **A part is its own only part.** -/
theorem splitTopLevel_part {text part : Text} (h : part ∈ splitTopLevel text sep) :
    splitTopLevel part sep = [part] := by
  obtain ⟨q, qs, hp, hsplit, hq, hqs⟩ := splitPieces_parts sep 0 (pieces text)
  have hpart : ∀ front x rest, pieces text = front ++ (x ++ rest) → Uncut sep 0 x →
      splitTopLevel (textOf x) sep = [textOf x] := fun front x rest hx huncut =>
    splitTopLevel_of_uncut ((Reads.of_pieces (pieces_textOf hx)).uncut_alone huncut)
  rw [splitTopLevel, hsplit, List.mem_cons, List.mem_map] at h
  rcases h with rfl | ⟨x, hx, rfl⟩
  · exact hpart [] q _ hp hq
  · obtain ⟨as, bs, rfl⟩ := List.append_of_mem hx
    refine hpart (q ++ (as.flatMap (.code sep :: ·) ++ [.code sep])) x (bs.flatMap (.code sep :: ·)) ?_ (hqs x hx)
    rw [hp]
    simp

end Cuts

theorem intercalate_eq_joinParts (sep : Char) (part : Text) (parts : List Text) :
    [sep].intercalate (part :: parts) = joinParts sep part parts := by
  induction parts generalizing part with
  | nil => simp [joinParts]
  | cons next parts ih => rw [List.intercalate_cons_cons, ih]; simp [joinParts]

/-- A separator at position `i`, behind the pieces `before`: a reader from the left meets it as code when as many
brackets are closed as were opened, and it is no bracket. -/
structure CutAt (text : Text) (sep : Char) (i : Nat) (before : List Piece) : Prop where
  met : ∃ behind, pieces text = before ++ .code sep :: behind
  position : (textOf before).length = i
  separates : Separates sep (openBehind 0 before)

/-- **A faithful split.** The parts with the separator between them are the text again, the text is cut exactly where a
reader from the left meets a separator outside literals, comments and brackets, and no part is cut again. The same
parts are found by byte offsets. -/
theorem splitTopLevel_faithful {sep : Char} (hsep : ¬ Bytes.Wide sep) (text : Text) :
    Bytes.splitTopLevel text sep = some (splitTopLevel text sep) ∧
      [sep].intercalate (splitTopLevel text sep) = text ∧
      (∀ i, i ∈ cuts 0 (splitTopLevel text sep) ↔ ∃ before, CutAt text sep i before) ∧
      ∀ part ∈ splitTopLevel text sep, splitTopLevel part sep = [part] := by
  refine ⟨Bytes.splitTopLevel_eq hsep text, ?_, fun i => ?_, fun part => splitTopLevel_part⟩
  · rw [splitTopLevel, intercalate_eq_joinParts, joinParts_splitPieces, textOf_pieces]
  · rw [splitTopLevel, mem_cuts_splitPieces]
    constructor
    · rintro ⟨ms, ns, hp, hi, hcut⟩
      exact ⟨ms, ⟨ns, hp⟩, by rw [← hi, Nat.zero_add], hcut⟩
    · rintro ⟨ms, ⟨ns, hp⟩, hi, hcut⟩
      exact ⟨ms, ns, hp, by rw [Nat.zero_add, hi], hcut⟩

/-- Two dashes in front of a separator become a comment when they end a part, and a closing bracket without a partner
does not hide the next separator. -/
theorem splitTopLevel_faithful_dashes :
    let text := "a--;(b;c);[d]]);'e;'f".toList
    let parts := ["a--".toList, "(b;c)".toList, "[d]])".toList, "'e;'f".toList]
    ¬ Bytes.Wide ';' ∧ splitTopLevel text ';' = parts ∧ Bytes.splitTopLevel text ';' = some parts ∧
      [';'].intercalate parts = text ∧ 15 ∈ cuts 0 parts ∧ (∃ before, CutAt text ';' 15 before) ∧
      "a--".toList ∈ parts ∧ splitTopLevel "a--".toList ';' = ["a--".toList] := by
  intro text parts
  have hparts : splitTopLevel text ';' = parts := by decide +kernel
  obtain ⟨hbytes, hjoin, hcuts, hagain⟩ := splitTopLevel_faithful (by decide : ¬ Bytes.Wide ';') text
  rw [hparts] at hbytes hjoin hcuts hagain
  have hcut : 15 ∈ cuts 0 parts := by decide +kernel
  exact ⟨by decide, hparts, hbytes, hjoin, hcut, (hcuts 15).mp hcut, by decide, hagain _ (by decide)⟩

end SqlDialect
