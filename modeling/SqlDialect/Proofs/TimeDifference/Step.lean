import SqlDialect.Proofs.WellFormed
import SqlDialect.Proofs.TimeDifference
import SqlDialect.Proofs.Bytes.Stages

/-!
# One call after the other

In a text without comments the conversion of TIMESTAMPDIFF calls is a run of steps. Each takes one call out of the
text, drops the name, the unit and the spaces around the arguments, and writes the two timestamps with the embedded
form around them. The rest of the text is left as it is, piece by piece.

* `call_pieces`: a step, at the call that the search finds.
* `run_convert`: the conversion is a run of such steps.
* `Run.wellFormed`: a run leads from a well-formed text to another.
-/

namespace SqlDialect.TimeDifference

/-! ## Steps -/

/-- The text `next` is the text `T` with one call converted. -/
def Step (T next : Text) : Prop :=
  ∃ (ps qs fs ls rs : List Piece) (v bl f₁ f₂ l₁ l₂ : Text) (u : List Piece), pieces T = ps ++ (qs ++ rs) ∧
    CallPieces qs fs ls v bl f₁ f₂ l₁ l₂ u ∧ pieces next = ps ++ (writtenPieces fs ls ++ rs)

/-- The calls of a text are converted one after the other. -/
inductive Run : Text → Text → Prop where
  | stop (text : Text) : Run text text
  | step {text next out : Text} : Step text next → Run next out → Run text out

/-! ## A step -/

/-- What stands in front of the name that is found, and behind it. -/
theorem findKeyword_name {before : Option Char} {rest : Text} {n : Nat}
    (h : findKeyword functionName before rest = some n) :
    ∃ ms v u, pieces rest = ms ++ (v.map .code ++ pieces u) ∧ textOf ms = rest.take n ∧
      Text.lower v = Text.lower functionName ∧ u = rest.drop (n + functionName.length) := by
  obtain ⟨ms, v, u, rfl, hp, rfl, hv, -, -⟩ := findKeyword_split functionName_ne_nil isWord_functionName h
  refine ⟨ms, v, u, hp, List.take_left.symm, hv, ?_⟩
  rw [← length_eq_of_lower_eq hv, ← List.drop_drop, List.drop_left, List.drop_left]

/-- The blanks between the name and its parenthesis. -/
theorem pieces_blanks {x inner : Text} (h : x.dropWhile isBlank = '(' :: inner) :
    pieces x = (x.takeWhile isBlank).map .code ++ .code '(' :: pieces inner := by
  conv => lhs; rw [← List.takeWhile_append_dropWhile (p := isBlank) (l := x), h]
  rw [pieces_spaces fun c hc => isSpace_of_isBlank (List.all_eq_true.mp List.all_takeWhile c hc),
    pieces_code (regionTail?_of_ne (by decide) (by decide) (by decide) (by decide) _)]

/-- The arguments of a call that is read. -/
theorem arguments_pieces {inner call : Text} {q rs : List Piece} {d : TimeDifference}
    (hp : pieces inner = q ++ .code ')' :: rs) (hn : nest [] q = some [])
    (hc : ∀ t, .region .comment t ∉ q) (h : read call (textOf q) = .ok d) :
    ∃ (u fs ls : List Piece) (f₁ f₂ l₁ l₂ : Text), q = u ++ .code ',' :: ((f₁.map .code ++ (fs ++ f₂.map .code)) ++
        .code ',' :: (l₁.map .code ++ (ls ++ l₂.map .code))) ∧ (∀ c ∈ f₁ ++ f₂ ++ (l₁ ++ l₂), isSpace c = true) ∧
      Text.lower (Text.trim (textOf u)) = Text.lower unitName ∧
      (nest [] u = some [] ∧ nest [] fs = some [] ∧ nest [] ls = some []) ∧ textOf fs = d.first ∧ textOf ls = d.last ∧
      ∀ r, Reads d.render r (writtenPieces fs ls) := by
  have hread : Reads (textOf q) [')'] q := reads_parenthesis (Reads.of_pieces hp) hn
  obtain ⟨unit, first, last, hs, rfl, hu, -, -⟩ := read_eq_ok_iff.mp h
  obtain ⟨u, fs, ls, f₁, f₂, l₁, l₂, rfl, rfl, hspaces, hbal, hfirst, hlast⟩ := placed_arguments hread hn hc hs
  refine ⟨u, fs, ls, f₁, f₂, l₁, l₂, rfl, hspaces, by simpa [Text.same] using hu, hbal, (hfirst []).reads.textOf_eq,
    (hlast []).reads.textOf_eq, reads_render (fun x => ?_) fun x => ?_⟩
  · exact reads_closing (hfirst []).reads hbal.2.1 (head?_append_some head?_closing x)
  · exact reads_closing (hlast []).reads hbal.2.2 (head?_append_some head?_middle x)

/-- The quotes in what is written are those of the timestamps. -/
theorem quote_mem_render {d : TimeDifference} {q : Char} (hq : isQuote q = true) (h : q ∈ d.render) :
    q ∈ d.first ∨ q ∈ d.last := by
  have hfixed : ∀ t : Text, (∀ c ∈ t, isQuote c = false) → q ∉ t := fun t ht hm => by
    rw [ht q hm] at hq
    cases hq
  rw [render, List.mem_append, List.mem_append, List.mem_append, List.mem_append] at h
  rcases h with (((h | h) | h) | h) | h
  · exact absurd h (hfixed _ (by decide +kernel))
  · exact Or.inr h
  · exact absurd h (hfixed _ (by decide +kernel))
  · exact Or.inl h
  · exact absurd h (hfixed _ (by decide +kernel))

/-- **A step.** The call that is found is taken out of the text, and the conversion goes on in front of what is written
for it, again between two pieces. -/
theorem call_pieces {done rest inner call : Text} {n close : Nat} {d : TimeDifference} {ps : List Piece}
    (h : Reads done rest ps) (hc : ∀ t, .region .comment t ∉ pieces (done ++ rest))
    (hk : findKeyword functionName done.getLast? rest = some n)
    (ha : (rest.drop (n + functionName.length)).dropWhile isBlank = '(' :: inner)
    (hcl : closingOffset? ('(' :: inner) = some close) (hd : read call (inner.take (close - 1)) = .ok d) :
    ∃ qs, Reads (done ++ rest.take n) (d.render ++ inner.drop close) qs ∧
      Step (done ++ rest) (done ++ rest.take n ++ (d.render ++ inner.drop close)) := by
  obtain ⟨ms, v, x, hp, hms, hv, rfl⟩ := findKeyword_name hk
  -- blanks, and the arguments in parentheses
  rw [closingOffset?_parenthesis] at hcl
  obtain ⟨k, hk', rfl⟩ := Option.map_eq_some_iff.mp hcl
  obtain ⟨q, c, rs, hinner, rfl, hq, hparen⟩ := closingIn_iff (s := []).mp hk'
  obtain rfl := eq_of_openerOf? hparen
  have hsplit : inner = (textOf q ++ [')']) ++ textOf rs := by
    rw [← textOf_pieces inner, hinner, textOf_append, textOf_cons, List.append_assoc]
    rfl
  have hdrop : inner.drop ((textOf q).length + 1) = textOf rs := by
    conv => lhs; rw [hsplit]
    exact List.drop_left' (by simp)
  have htake : inner.take (textOf q).length = textOf q := by
    conv => lhs; rw [hsplit, List.append_assoc]
    exact List.take_left
  have hinner' : pieces inner = (q ++ [.code ')']) ++ rs := by rw [hinner]; simp
  rw [Nat.add_sub_cancel, htake] at hd
  rw [hdrop]
  generalize hbl : (rest.drop (n + functionName.length)).takeWhile isBlank = bl at *
  have hblank : ∀ c ∈ bl, isBlank c = true := fun c hm => by
    rw [← hbl] at hm
    exact List.all_eq_true.mp List.all_takeWhile c hm
  rw [pieces_blanks ha, hbl, hinner'] at hp
  have hall : pieces (done ++ rest) =
      (ps ++ ms) ++ ((v.map .code ++ (bl.map .code ++ .code '(' :: (q ++ [.code ')']))) ++ rs) := by
    rw [h, hp]
    simp
  have hcq : ∀ t, .region .comment t ∉ q := fun t ht => hc t (by rw [hall]; simp [ht])
  obtain ⟨u, fs, ls, f₁, f₂, l₁, l₂, rfl, hspaces, hunit, hnest, hfirst, hlast, hwritten⟩ :=
    arguments_pieces hinner hq hcq hd
  -- what stands in front is read as before
  have htext : done ++ rest.take n = textOf (ps ++ ms) := by rw [textOf_append, h.textOf_eq, hms]
  have hfront : Reads (done ++ rest.take n) (d.render ++ textOf rs) (ps ++ ms) := by
    rw [htext]
    have hold := Reads.of_pieces hall
    have hhead : (d.render ++ textOf rs).head? = some '(' := by
      simp only [render, List.head?_append, head?_opening, Option.some_or]
    apply hold.context_of_no_comment
    · simp [Piece.text]
    · exact fun t ht => hc t (by rw [hall]; exact List.mem_append_left _ ht)
    · exact apart_of_head hhead (by decide) (by decide) (by decide) _
    · intro q' hq' hm hmem
      have hnot := hold.not_mem_of_quote hq' hm
      rcases List.mem_append.mp hmem with hmem | hmem
      · rcases quote_mem_render hq' hmem with hmem | hmem
        · rw [← hfirst] at hmem
          exact hnot (by simp [Piece.text, hmem])
        · rw [← hlast] at hmem
          exact hnot (by simp [Piece.text, hmem])
      · exact hnot (by simp [hmem])
  refine ⟨ps ++ ms, hfront, ps ++ ms, _, fs, ls, rs, v, bl, f₁, f₂, l₁, l₂, u, hall,
    ⟨?_, hv, hblank, hspaces, hunit, hnest⟩, ?_⟩
  · simp
  · rw [hfront, hwritten, pieces_textOf hinner']

/-- Behind a name without a parenthesis the conversion goes on between two pieces of the same text. -/
theorem bare_pieces {done rest : Text} {n : Nat} {ps : List Piece} (h : Reads done rest ps)
    (hk : findKeyword functionName done.getLast? rest = some n) :
    done ++ rest.take (n + functionName.length) ++ rest.drop (n + functionName.length) = done ++ rest ∧
      ∃ qs, Reads (done ++ rest.take (n + functionName.length)) (rest.drop (n + functionName.length)) qs := by
  obtain ⟨ms, v, x, hp, -, -, rfl⟩ := findKeyword_name hk
  have htext : done ++ rest.take (n + functionName.length) ++ rest.drop (n + functionName.length) = done ++ rest := by
    rw [List.append_assoc, List.take_append_drop]
  refine ⟨htext, ps ++ (ms ++ v.map .code), ?_⟩
  rw [Reads, htext, h, hp, List.append_assoc, List.append_assoc]

/-! ## A run -/

/-- No comment arises in a step. -/
theorem Step.no_comment {T next : Text} (h : Step T next) (hc : ∀ t, .region .comment t ∉ pieces T) :
    ∀ t, .region .comment t ∉ pieces next := by
  obtain ⟨ps, qs, fs, ls, rs, v, bl, f₁, f₂, l₁, l₂, u, hT, hcall, hnext⟩ := h
  rw [hT, hcall.pieces] at hc
  intro t ht
  rw [hnext] at ht
  simp only [writtenPieces, List.mem_append, List.mem_map, reduceCtorEq, and_false, exists_false, false_or,
    or_false] at ht
  rcases ht with ht | ⟨ht | ht⟩ | ht
  all_goals exact hc t (by simp [ht])

/-- **The conversion is a run.** -/
theorem run_convertFrom {done rest out : Text} {ps : List Piece} (h : convertFrom done rest = .ok out)
    (hr : Reads done rest ps) (hc : ∀ t, .region .comment t ∉ pieces (done ++ rest)) : Run (done ++ rest) out := by
  fun_induction convertFrom done rest generalizing ps with
  | case1 done rest hk =>
    cases h
    exact .stop _
  | case2 | case3 => cases h
  | @case4 done rest n hk after blanks inner ha close hcl call arguments d hd ih =>
    obtain ⟨qs, hqs, hstep⟩ := call_pieces hr hc hk ha hcl hd
    exact .step hstep (ih h hqs (hstep.no_comment hc))
  | @case5 done rest n hk after _ ih =>
    obtain ⟨htext, qs, hqs⟩ := bare_pieces hr hk
    have hrun := ih h hqs (by rwa [htext])
    rwa [htext] at hrun

theorem run_convert {text out : Text} (h : convert text = .ok out) (hc : ∀ t, .region .comment t ∉ pieces text) :
    Run text out :=
  run_convertFrom h (Reads.nil text) hc

/-! ## Well-formed texts -/

/-- A step leads from one well-formed text to another. -/
theorem Step.wellFormed {T next : Text} (h : Step T next) (hT : WellFormed T) : WellFormed next := by
  have hc := h.no_comment hT.comment
  obtain ⟨ps, qs, fs, ls, rs, v, bl, f₁, f₂, l₁, l₂, u, hp, hcall, hnext⟩ := h
  refine ⟨hc, ?_⟩
  have hwritten := nest_written hcall.nest.2.1 hcall.nest.2.2
  have hnest := hT.nest
  rw [hp, nest_append] at hnest
  rw [hnext, nest_append]
  simp only [nest_balanced_append hcall.balanced] at hnest
  simp only [nest_balanced_append hwritten]
  exact hnest

/-- **A run leads from one well-formed text to another.** -/
theorem Run.wellFormed {text out : Text} (h : Run text out) (hT : WellFormed text) : WellFormed out := by
  induction h with
  | stop => exact hT
  | step hstep _ ih => exact ih (hstep.wellFormed hT)

/-- The conversion of a well-formed text is well-formed. -/
theorem wellFormed_convert {text out : Text} (hT : WellFormed text) (h : convert text = .ok out) : WellFormed out :=
  (run_convert h hT.comment).wellFormed hT

end SqlDialect.TimeDifference
