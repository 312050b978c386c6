import SqlDialect.Proofs.Nesting

/-!
# Well-formed texts

A text is well-formed if it holds no comment, every quote stands in a literal, and the brackets outside of literals
match. Such a text is read alike in front of any other that stands apart from it, so well-formed texts may be put
together.

* `reads_of_nest`: a text without comments and open quotes is read alone as in front of another text.
* `WellFormed.append`: neighbouring well-formed texts.
-/

namespace SqlDialect

/-- A text without comments in which every quote stands in a literal and the brackets match. -/
structure WellFormed (text : Text) : Prop where
  comment : ∀ t, .region .comment t ∉ pieces text
  nest : nest [] (pieces text) = some []

/-- Is the piece a comment? -/
def Piece.isComment : Piece → Bool
  | .region .comment _ => true
  | _ => false

theorem no_comment_iff {ps : List Piece} : (∀ t, .region .comment t ∉ ps) ↔ ∀ p ∈ ps, p.isComment = false := by
  constructor
  · intro h p hp
    cases p with
    | code c => rfl
    | region kind t =>
      cases kind with
      | literal => rfl
      | comment => exact absurd hp (h t)
  · intro h t ht
    cases h _ ht

instance (text : Text) : Decidable (WellFormed text) :=
  decidable_of_iff ((∀ p ∈ pieces text, p.isComment = false) ∧ nest [] (pieces text) = some [])
    ⟨fun h => ⟨no_comment_iff.mpr h.1, h.2⟩, fun h => ⟨no_comment_iff.mp h.comment, h.nest⟩⟩

/-- A well-formed text is made of code and literals. -/
theorem WellFormed.isCodeOrLiteral {text : Text} (h : WellFormed text) : ∀ p ∈ pieces text, p.IsCodeOrLiteral := by
  intro p hp
  cases p with
  | code c => exact isQuote_of_nest h.nest hp
  | region kind t =>
    cases kind with
    | literal => exact quoted_of_literal hp
    | comment => exact h.comment t hp

/-- Behind some of its pieces a text is read as the others. -/
theorem pieces_drop {t : Text} {ps qs : List Piece} (h : pieces t = ps ++ qs) :
    pieces (t.drop (textOf ps).length) = qs := by
  rw [drop_of_pieces h rfl]
  exact pieces_textOf h

/-- A text without comments in which every quote stands in a literal is read alone as in front of another that stands
apart from it. -/
theorem reads_of_nest {a r : Text} {s t : List Char} (hc : ∀ t, .region .comment t ∉ pieces a)
    (hn : nest s (pieces a) = some t) (hr : Apart a r) : Reads a r (pieces a) := by
  fun_induction pieces a generalizing s with
  | case1 => exact Reads.nil r
  | case2 c rest kind n hreg ih =>
    have hle := lt_of_regionTail? hreg
    have hsplit : c :: rest = (c :: rest.take n) ++ rest.drop n := by simp
    have hrest := ih (fun t ht => hc t (List.mem_cons_of_mem _ ht)) hn (hsplit ▸ hr).of_append
    cases kind with
    | comment => exact absurd List.mem_cons_self (hc _)
    | literal =>
      -- a literal ends where it does alone
      have hlit : literalTail? c rest = some n := by
        rcases regionTail?_cases hreg with ⟨-, h⟩ | ⟨h, -⟩
        · exact h
        · cases h
      have hlit' : literalTail? c (rest ++ r) = some n :=
        literalTail?_append (r := []) (by rwa [List.append_nil]) hle r
      have hreg' : regionTail? c (rest ++ r) = some (.literal, n) := by rw [regionTail?, hlit']
      rw [Reads, List.cons_append, pieces_region hreg', List.take_append_of_le_length hle,
        List.drop_append_of_le_length hle, hrest]
      rfl
  | case3 c rest hreg ih =>
    have hquote := isQuote_of_nest hn List.mem_cons_self
    have hn' : nest s (.code c :: pieces rest) = nest s ([.code c] ++ pieces rest) := rfl
    rw [hn', nest_append] at hn
    obtain ⟨s', -, hn⟩ := Option.bind_eq_some_iff.mp hn
    have hrest := ih (fun t ht => hc t (List.mem_cons_of_mem _ ht)) hn (Apart.of_append (a := [c]) hr)
    have hnone : regionTail? c (rest ++ r) = none := by
      refine regionTail?_append_none (r := []) (by rwa [List.append_nil]) (Or.inr hr) fun hq => ?_
      rw [hquote] at hq
      cases hq
    rw [Reads, List.cons_append, pieces_code hnone, hrest]
    rfl

/-- What is read without comments in front of one text is read so in front of another that stands apart, if no quote
without a partner finds one in that. -/
theorem Reads.context_of_no_comment {a r r' : Text} {ps : List Piece} (h : Reads a r ps) (hr : r ≠ [])
    (hc : ∀ t, .region .comment t ∉ ps) (hj : Apart a r') (hq : ∀ q, isQuote q = true → .code q ∈ ps → q ∉ r') :
    Reads a r' ps := by
  refine h.context hr (fun p hp hline => ?_) (Or.inr hj) hq
  have hm := List.mem_of_getLast? hp
  cases p with
  | code c => cases hline
  | region kind t =>
    cases kind with
    | literal => cases hline
    | comment => exact absurd hm (hc t)

/-- A character that neither continues a comment nor is a blank stands apart from any text. -/
theorem apart_of_head {c : Char} {r : Text} (hr : r.head? = some c) (hd : c ≠ '-') (hs : c ≠ '*')
    (hb : isBlank c = false) (a : Text) : Apart a r := by
  refine ⟨?_, ?_, fun h => ?_⟩
  · rw [hr]
    simpa using hd
  · rw [hr]
    simpa using hs
  · rw [hr, Option.all_some, hb] at h
    cases h

theorem pieces_comma (t : Text) : pieces (',' :: t) = .code ',' :: pieces t :=
  pieces_code (regionTail?_of_ne (by decide) (by decide) (by decide) (by decide) _)

/-- A text stands apart from a comma. -/
theorem apart_comma (a t : Text) : Apart a (',' :: t) := apart_of_head rfl (by decide) (by decide) (by decide) a

namespace WellFormed

variable {a b : Text}

theorem reads (h : WellFormed a) {r : Text} (hr : Apart a r) : Reads a r (pieces a) := reads_of_nest h.comment h.nest hr

/-- Neighbouring well-formed texts. -/
theorem append (ha : WellFormed a) (hb : WellFormed b) (h : Apart a b) : WellFormed (a ++ b) := by
  have hp : pieces (a ++ b) = pieces a ++ pieces b := ha.reads h
  constructor
  · intro t ht
    rw [hp] at ht
    exact (List.mem_append.mp ht).elim (ha.comment t) (hb.comment t)
  · rw [hp, nest_append, ha.nest]
    exact hb.nest

/-- Pieces without comments whose brackets match make up a well-formed text. -/
theorem of_pieces {ps : List Piece} (hp : pieces a = ps) (hc : ∀ t, .region .comment t ∉ ps)
    (hn : SqlDialect.nest [] ps = some []) : WellFormed a := by
  subst hp
  exact ⟨hc, hn⟩

end WellFormed

end SqlDialect
