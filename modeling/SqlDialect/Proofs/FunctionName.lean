import SqlDialect.FunctionName
import SqlDialect.Proofs.Keyword
import SqlDialect.Proofs.WellFormed

/-!
# Renaming functions

A function is renamed by a step for each call: its name with the opening parenthesis is taken out of the text, and
the other name with its parenthesis is put in their place. `Renamed` is what such steps lead to.

* `renameFrom_call`: a step, at the first name that is found.
* `convert_induction`: what each function's renaming keeps is kept.
* `Renamed.nest`: the brackets of a text without open quotes match as before.
* `wellFormed_convert`: a well-formed text stays well-formed.
-/

namespace SqlDialect.FunctionName

/-- A function's name: word characters, and at least one. -/
def IsName (t : Text) : Prop := t ≠ [] ∧ ∀ c ∈ t, isWord c = true

/-- Both spellings of a function are a name and a parenthesis. -/
theorem renames_spelled : ∀ r ∈ renames, (r.old = r.old.dropLast ++ ['('] ∧ IsName r.old.dropLast) ∧
    r.new = r.new.dropLast ++ ['('] ∧ IsName r.new.dropLast := by
  unfold IsName
  decide +kernel

/-- A name with its parenthesis stands at the start of a text if the text starts with the name and a parenthesis, and
no word character stands in front. -/
theorem startsKeyword_call_iff {w : Text} (hw : IsName w) {before : Option Char} {text : Text} :
    startsKeyword (w ++ ['(']) before text = true ↔
      before.any isWord = false ∧ ∃ v u, text = v ++ '(' :: u ∧ Text.lower v = Text.lower w := by
  have hhead : (w ++ ['(']).head?.any isWord = true := by
    obtain ⟨d, w, rfl⟩ := List.exists_cons_of_ne_nil hw.1
    simpa using hw.2 d List.mem_cons_self
  have hlast : (w ++ ['(']).getLast?.any isWord = false := by
    rw [List.getLast?_concat]
    decide
  have hstarts : Text.starts (w ++ ['(']) text = true ↔
      ∃ v u, text = v ++ '(' :: u ∧ Text.lower v = Text.lower w := by
    rw [starts_iff]
    constructor
    · rintro ⟨x, u, rfl, hx⟩
      obtain ⟨v, y, rfl, hv, hy⟩ := lower_eq_append hx
      obtain rfl := eq_of_lower_eq hy (by decide)
      exact ⟨v, u, by simp, hv⟩
    · rintro ⟨v, u, rfl, hv⟩
      refine ⟨v ++ ['('], u, by simp, ?_⟩
      rw [Text.lower, List.map_append]
      exact (congrArg (· ++ _) hv).trans List.map_append.symm
  simp only [startsKeyword, hhead, hlast, Bool.true_and, Bool.false_and, Bool.not_false, Bool.and_true,
    Bool.and_eq_true, Bool.not_eq_true', hstarts]
  exact And.comm

/-- A name with its parenthesis that is found. -/
theorem findKeyword_call {w text : Text} {before : Option Char} {n : Nat} (hw : IsName w)
    (h : findKeyword (w ++ ['(']) before text = some n) :
    ∃ ms v u, text = textOf ms ++ (v ++ '(' :: u) ∧ pieces text = ms ++ (v.map .code ++ .code '(' :: pieces u) ∧
      (textOf ms).length = n ∧ Text.lower v = Text.lower w ∧ ((textOf ms).getLast?.or before).any isWord = false := by
  rw [findKeyword_eq_firstIn] at h
  obtain ⟨ms, c, ns, hp, hl, hs⟩ := firstIn_split h
  obtain ⟨hbefore, v, u, hvu, hv⟩ := (startsKeyword_call_iff hw).mp hs
  have htext : text = textOf ms ++ (v ++ '(' :: u) := by
    rw [← textOf_pieces text, hp, textOf_append, textOf_cons, Piece.text, List.singleton_append, hvu]
  have hns := pieces_textOf hp
  rw [textOf_cons, Piece.text, List.singleton_append, hvu, reads_word (isWord_of_lower_eq hv hw.2),
    pieces_code (regionTail?_of_ne (by decide) (by decide) (by decide) (by decide) u)] at hns
  exact ⟨ms, v, u, htext, by rw [hp, hns], hl, hv, hbefore⟩

/-- Where no name is found, nothing is renamed. -/
theorem renameFrom_of_none {r : Rename} {before : Option Char} {text : Text}
    (h : findKeyword r.old before text = none) : renameFrom r before text = text := by
  rw [renameFrom]
  split
  · rfl
  · next n hn =>
    rw [h] at hn
    cases hn

/-- The first name that is found is replaced, and the renaming goes on behind it. -/
theorem renameFrom_of_some {r : Rename} (hr : r.old ≠ []) {before : Option Char} {text : Text} {n : Nat}
    (h : findKeyword r.old before text = some n) :
    renameFrom r before text =
      text.take n ++ (r.new ++ renameFrom r r.new.getLast? (text.drop (n + r.old.length))) := by
  rw [renameFrom]
  split
  · next hnone =>
    rw [h] at hnone
    cases hnone
  · next m hm =>
    rw [h, Option.some.injEq] at hm
    rw [hm, dif_neg hr, List.append_assoc]

/-- A name that is found is replaced, and the renaming goes on behind its parenthesis. -/
theorem renameFrom_name {r : Rename} (hr : r ∈ renames) {before : Option Char} {x v u : Text}
    (h : findKeyword r.old before (x ++ (v ++ '(' :: u)) = some x.length)
    (hv : Text.lower v = Text.lower r.old.dropLast) :
    renameFrom r before (x ++ (v ++ '(' :: u)) = x ++ (r.new ++ renameFrom r (some '(') u) := by
  obtain ⟨⟨hold, -⟩, hnew, -⟩ := renames_spelled r hr
  have hlast : r.new.getLast? = some '(' := by
    rw [hnew]
    exact List.getLast?_concat ..
  have hlen : r.old.length = (v ++ ['(']).length := by
    rw [hold, List.length_append, List.length_append, length_eq_of_lower_eq hv]
  have hdrop : (x ++ (v ++ '(' :: u)).drop (x.length + r.old.length) = u := by
    rw [hlen, ← List.drop_drop, List.drop_left, List.append_cons v '(' u, List.drop_left]
  rw [renameFrom_of_some (by rw [hold]; simp) h, List.take_left, hlast, hdrop]

/-- **A step.** The first name that is found is replaced, and the renaming goes on behind its parenthesis. -/
theorem renameFrom_call {r : Rename} (hr : r ∈ renames) {before : Option Char} {text : Text} {n : Nat}
    (h : findKeyword r.old before text = some n) :
    ∃ ms v u, text = textOf ms ++ (v ++ '(' :: u) ∧ pieces text = ms ++ (v.map .code ++ .code '(' :: pieces u) ∧
      Text.lower v = Text.lower r.old.dropLast ∧ ((textOf ms).getLast?.or before).any isWord = false ∧
      renameFrom r before text = textOf ms ++ (r.new ++ renameFrom r (some '(') u) := by
  obtain ⟨⟨hold, hname⟩, -⟩ := renames_spelled r hr
  have hfind := h
  rw [hold] at hfind
  obtain ⟨ms, v, u, rfl, hp, rfl, hv, hbefore⟩ := findKeyword_call hname hfind
  exact ⟨ms, v, u, rfl, hp, hv, hbefore, renameFrom_name hr h hv⟩

/-! ## Renaming as a relation -/

/-- The text `out` is `text` with calls renamed: behind a name that is replaced the renaming goes on. -/
inductive Renamed (r : Rename) : (text out : Text) → Prop where
  | stop (text : Text) : Renamed r text text
  | call {ms : List Piece} {v u out : Text} :
      pieces (textOf ms ++ (v ++ '(' :: u)) = ms ++ (v.map .code ++ .code '(' :: pieces u) →
      Text.lower v = Text.lower r.old.dropLast → (textOf ms).getLast?.any isWord = false → Renamed r u out →
      Renamed r (textOf ms ++ (v ++ '(' :: u)) (textOf ms ++ (r.new ++ out))

theorem renamed_renameFrom {r : Rename} (hr : r ∈ renames) (before : Option Char) (text : Text) :
    Renamed r text (renameFrom r before text) := by
  induction hlen : text.length using Nat.strongRecOn generalizing text before with
  | ind m ih =>
    cases h : findKeyword r.old before text with
    | none =>
      rw [renameFrom_of_none h]
      exact .stop text
    | some n =>
      obtain ⟨ms, v, u, rfl, hp, hv, hbefore, hout⟩ := renameFrom_call hr h
      have hlast : (textOf ms).getLast?.any isWord = false := by
        cases hl : (textOf ms).getLast? with
        | none => rfl
        | some c =>
          rw [hl] at hbefore
          exact hbefore
      rw [hout]
      exact .call hp hv hlast (ih u.length (by rw [← hlen]; simp; omega) (some '(') u rfl)

/-- What renaming a function keeps, renaming all of them keeps. -/
theorem convert_induction {P : Text → Prop} (h : ∀ r ∈ renames, ∀ text out, Renamed r text out → P text → P out)
    {text : Text} (ht : P text) : P (convert text) := by
  have hfold : ∀ (rs : List Rename) (text : Text), (∀ r ∈ rs, r ∈ renames) → P text →
      P (rs.foldl (fun text r => renameFrom r none text) text) := by
    intro rs
    induction rs with
    | nil => exact fun text _ h => h
    | cons r rs ih =>
      intro text hrs ht
      have hr := hrs r List.mem_cons_self
      exact ih _ (fun r hr => hrs r (List.mem_cons_of_mem _ hr)) (h r hr _ _ (renamed_renameFrom hr none text) ht)
  exact hfold renames text (fun _ hr => hr) ht

/-! ## Well-formed texts -/

/-- **The brackets match as before.** In a text without comments and open quotes a function is renamed piece by
piece. -/
theorem Renamed.nest {r : Rename} (hr : r ∈ renames) {text out : Text} (h : Renamed r text out) {s t : List Char}
    (hc : ∀ t, .region .comment t ∉ pieces text) (hn : SqlDialect.nest s (pieces text) = some t) :
    (∀ t, .region .comment t ∉ pieces out) ∧ SqlDialect.nest s (pieces out) = some t := by
  induction h generalizing s with
  | stop => exact ⟨hc, hn⟩
  | @call ms v u out hp hv _ _ ih =>
    obtain ⟨⟨-, -, hold⟩, hnew, hname⟩ := renames_spelled r hr
    have hword : ∀ {x : Text}, (∀ c ∈ x, isWord c = true) → ∀ st qs,
        SqlDialect.nest st (x.map .code ++ .code '(' :: qs) = SqlDialect.nest ('(' :: st) qs := fun hx st qs => by
      rw [nest_word hx, nest_open rfl]
    rw [hp] at hc hn
    obtain ⟨st, hms, hrest⟩ := nest_prefix hn
    rw [hword (isWord_of_lower_eq hv hold)] at hrest
    obtain ⟨hcu, hnu⟩ := ih (fun t ht => hc t (by simp [ht])) hrest
    -- what stands in front is read so in front of the other name too
    have hfront : Reads (textOf ms) (r.new ++ out) ms := by
      obtain ⟨c, x, hx⟩ := List.exists_cons_of_ne_nil hname.1
      have hcword : isWord c = true := hname.2 c (by rw [hx]; exact List.mem_cons_self)
      have hne : ∀ d : Char, isWord d = false → c ≠ d := fun d hd e => by
        rw [e, hd] at hcword
        cases hcword
      have hblank : isBlank c = false := by
        simp only [isBlank, Bool.or_eq_false_iff, decide_eq_false_iff_not]
        exact ⟨⟨⟨⟨hne _ rfl, hne _ rfl⟩, hne _ rfl⟩, hne _ rfl⟩, hne _ rfl⟩
      have hhead : (r.new ++ out).head? = some c := by rw [hnew, hx]; rfl
      apply (Reads.of_pieces hp).context_of_no_comment
      · simp [Piece.text]
      · exact fun t ht => hc t (List.mem_append_left _ ht)
      · exact apart_of_head hhead (hne '-' rfl) (hne '*' rfl) hblank _
      · intro q hq hm
        rw [isQuote_of_nest hms hm] at hq
        cases hq
    have hall : pieces (textOf ms ++ (r.new ++ out)) =
        ms ++ (r.new.dropLast.map .code ++ .code '(' :: pieces out) := by
      rw [hfront]
      conv => lhs; rw [hnew, List.append_assoc]
      rw [reads_word hname.2, List.singleton_append,
        pieces_code (regionTail?_of_ne (by decide) (by decide) (by decide) (by decide) _)]
    rw [hall]
    constructor
    · intro t ht
      simp only [List.mem_append, List.mem_map, List.mem_cons, reduceCtorEq, and_false, exists_false, false_or] at ht
      rcases ht with ht | ht
      · exact hc t (List.mem_append_left _ ht)
      · exact hcu t ht
    · rw [nest_append, hms, Option.bind_some, hword hname.2]
      exact hnu

/-- The brackets of a well-formed text match under the other names too. -/
theorem wellFormed_convert {text : Text} (h : WellFormed text) : WellFormed (convert text) := by
  refine convert_induction (fun r hr text out hrenamed ht => ?_) h
  obtain ⟨hc, hn⟩ := hrenamed.nest hr ht.comment ht.nest
  exact ⟨hc, hn⟩

end SqlDialect.FunctionName
