import Mathlib.Data.List.Forall2
import SqlDialect.Text.Offset
import SqlDialect.Proofs.Keyword
import SqlDialect.Proofs.Nesting

/-!
# Texts that differ within literals

Two lists of pieces are twins if they have the same characters of code and, at the same places, literals between the
same quotes with contents of one length in bytes. Two texts are similar if they are made of twins. What looks for words,
brackets, separators or spaces does not look into a literal, so it finds the same in both texts, though not at the same
positions: the contents need not have equally many characters.

* `Twins.firstIn`, `Twins.closingIn`: two searches find their aims between twins.
* `Twins.splitPieces`: the parts of two texts are similar.
* `Similar.trim`, `Similar.same`: so they are without spaces at their ends, and both are a word or neither is.
* `Similar.twins`: similar texts are read as twins, if no comment stands in one of them.
-/

namespace SqlDialect

open Text

/-- The pieces differ in what stands between the quotes of literals only. -/
inductive Twins : List Piece → List Piece → Prop where
  | nil : Twins [] []
  | code {c : Char} {ps qs : List Piece} : isQuote c = false → Twins ps qs → Twins (.code c :: ps) (.code c :: qs)
  | literal {q : Char} {x y : Text} {ps qs : List Piece} : isQuote q = true → q ∉ x → q ∉ y →
      byteLength x = byteLength y → Twins ps qs →
      Twins (.region .literal (q :: (x ++ [q])) :: ps) (.region .literal (q :: (y ++ [q])) :: qs)

/-- The texts are made of twins. -/
def Similar (a b : Text) : Prop := ∃ ps qs, Twins ps qs ∧ textOf ps = a ∧ textOf qs = b

/-! ## Twins -/

namespace Twins

variable {ps qs ps' qs' : List Piece}

theorem symm (h : Twins ps qs) : Twins qs ps := by
  induction h with
  | nil => exact .nil
  | code hc _ ih => exact .code hc ih
  | literal hq hx hy hl _ ih => exact .literal hq hy hx hl.symm ih

theorem append (h : Twins ps qs) (h' : Twins ps' qs') : Twins (ps ++ ps') (qs ++ qs') := by
  induction h with
  | nil => exact h'
  | code hc _ ih => exact .code hc ih
  | literal hq hx hy hl _ ih => exact .literal hq hx hy hl ih

/-- Twins of two lists that are put together. -/
theorem split {zs : List Piece} (h : Twins (ps ++ ps') zs) :
    ∃ qs qs', zs = qs ++ qs' ∧ Twins ps qs ∧ Twins ps' qs' := by
  induction ps generalizing zs with
  | nil => exact ⟨[], zs, rfl, .nil, h⟩
  | cons p ps ih =>
    cases h with
    | code hc h =>
      obtain ⟨qs, qs', rfl, hqs, hqs'⟩ := ih h
      exact ⟨_ :: qs, qs', rfl, .code hc hqs, hqs'⟩
    | literal hq hx hy hl h =>
      obtain ⟨qs, qs', rfl, hqs, hqs'⟩ := ih h
      exact ⟨_ :: qs, qs', rfl, .literal hq hx hy hl hqs, hqs'⟩

theorem refl_map_code {t : Text} (h : ∀ c ∈ t, isQuote c = false) : Twins (t.map .code) (t.map .code) := by
  induction t with
  | nil => exact .nil
  | cons c t ih => exact .code (h c List.mem_cons_self) (ih fun d hd => h d (List.mem_cons_of_mem _ hd))

/-- The twins of characters are the same characters. -/
theorem of_map_code {t : Text} (h : Twins (t.map .code ++ ps) qs) :
    ∃ qs', qs = t.map .code ++ qs' ∧ (∀ c ∈ t, isQuote c = false) ∧ Twins ps qs' := by
  induction t generalizing qs with
  | nil => exact ⟨qs, rfl, by simp, h⟩
  | cons c t ih =>
    cases h with
    | code hc h =>
      obtain ⟨qs', rfl, ht, hqs⟩ := ih h
      exact ⟨qs', rfl, by simpa [hc] using ht, hqs⟩

theorem similar (h : Twins ps qs) : Similar (textOf ps) (textOf qs) := ⟨ps, qs, h, rfl, rfl⟩

/-- Twins start alike. -/
theorem head? (h : Twins ps qs) : (textOf ps).head? = (textOf qs).head? := by
  cases h <;> rfl

/-- Twins end alike. -/
theorem getLast? (h : Twins ps qs) : (textOf ps).getLast? = (textOf qs).getLast? := by
  induction h with
  | nil => rfl
  | code _ _ ih => rw [textOf_cons, textOf_cons, List.getLast?_append, List.getLast?_append, ih]
  | literal _ _ _ _ _ ih =>
    rw [textOf_cons, textOf_cons, List.getLast?_append, List.getLast?_append, ih]
    simp [Piece.text, List.getLast?_cons]

/-- The same brackets are open behind twins. -/
theorem nest (h : Twins ps qs) (stack : List Char) : nest stack ps = nest stack qs := by
  induction h generalizing stack with
  | nil => rfl
  | code _ _ ih => simp only [SqlDialect.nest, ih]
  | literal _ _ _ _ _ ih => exact ih stack

end Twins

/-! ## Similar texts -/

namespace Similar

variable {a b a' b' : Text} {c : Char}

theorem symm (h : Similar a b) : Similar b a := by
  obtain ⟨ps, qs, h, ha, hb⟩ := h
  exact ⟨qs, ps, h.symm, hb, ha⟩

theorem append (h : Similar a b) (h' : Similar a' b') : Similar (a ++ a') (b ++ b') := by
  obtain ⟨ps, qs, h, rfl, rfl⟩ := h
  obtain ⟨ps', qs', h', rfl, rfl⟩ := h'
  rw [← textOf_append, ← textOf_append]
  exact (h.append h').similar

/-- A text without quotes is similar to itself. -/
theorem refl (h : ∀ c ∈ a, isQuote c = false) : Similar a a :=
  ⟨_, _, .refl_map_code h, textOf_map_code a, textOf_map_code a⟩

theorem nil : Similar [] [] := refl (by simp)

theorem cons (hc : isQuote c = false) (h : Similar a b) : Similar (c :: a) (c :: b) :=
  (refl (a := [c]) (by simpa using hc)).append h

theorem head? (h : Similar a b) : a.head? = b.head? := by
  obtain ⟨ps, qs, h, rfl, rfl⟩ := h
  exact h.head?

theorem getLast? (h : Similar a b) : a.getLast? = b.getLast? := by
  obtain ⟨ps, qs, h, rfl, rfl⟩ := h
  exact h.getLast?

theorem eq_nil_iff (h : Similar a b) : a = [] ↔ b = [] := by
  rw [← List.head?_eq_none_iff, h.head?, List.head?_eq_none_iff]

/-- A character that is no quote stands at the start of both. -/
theorem tail (h : Similar (c :: a) b) (hc : isQuote c = false) : ∃ b', b = c :: b' ∧ Similar a b' := by
  obtain ⟨ps, qs, h, ha, rfl⟩ := h
  cases h with
  | nil => cases ha
  | code _ h => cases ha; exact ⟨_, rfl, h.similar⟩
  | literal hq =>
    cases ha
    rw [hq] at hc
    cases hc

/-- A text without quotes stands at the start of both. -/
theorem drop_left (h : Similar (a ++ a') b) (ha : ∀ c ∈ a, isQuote c = false) :
    ∃ b', b = a ++ b' ∧ Similar a' b' := by
  induction a generalizing b with
  | nil => exact ⟨b, rfl, h⟩
  | cons c a ih =>
    obtain ⟨rest, rfl, hrest⟩ := h.tail (ha c List.mem_cons_self)
    obtain ⟨b', rfl, hb⟩ := ih hrest fun d hd => ha d (List.mem_cons_of_mem _ hd)
    exact ⟨b', rfl, hb⟩

/-- A text without quotes is similar to no other one. -/
theorem eq_of_no_quote (h : Similar a b) (ha : ∀ c ∈ a, isQuote c = false) : a = b := by
  rw [← List.append_nil a] at h
  obtain ⟨b', rfl, hb⟩ := h.drop_left ha
  rw [hb.eq_nil_iff.mp rfl, List.append_nil]

end Similar

/-! ## Words -/

theorem isWord_of_isQuote {c : Char} (h : isQuote c = true) : isWord c = false := by
  simp only [isQuote, Bool.or_eq_true, decide_eq_true_eq] at h
  rcases h with (rfl | rfl) | rfl <;> decide

/-- A text with the letters of one without quotes has none either. -/
theorem isQuote_of_lower_eq {v w : Text} (h : Text.lower v = Text.lower w) (hw : ∀ c ∈ w, isQuote c = false) :
    ∀ c ∈ v, isQuote c = false := by
  intro c hc
  rw [Bool.eq_false_iff]
  intro hq
  have hmem : c.toLower ∈ Text.lower w := by
    rw [← h]
    exact List.mem_map_of_mem hc
  obtain ⟨d, hd, he⟩ := List.mem_map.mp hmem
  rw [← eq_of_toLower_eq he (isWord_of_isQuote hq), hw d hd] at hq
  cases hq

namespace Similar

variable {a b w : Text} (hw : ∀ c ∈ w, isQuote c = false)

include hw

/-- What one text starts with in any letter case, the other one starts with in the same. -/
theorem starts (h : Similar a b) (ha : Text.starts w a = true) :
    ∃ v x y, a = v ++ x ∧ b = v ++ y ∧ Similar x y ∧ Text.lower v = Text.lower w ∧ ∀ c ∈ v, isQuote c = false := by
  obtain ⟨v, x, rfl, hv⟩ := starts_iff.mp ha
  have hquote := isQuote_of_lower_eq hv hw
  obtain ⟨y, rfl, hy⟩ := h.drop_left hquote
  exact ⟨v, x, y, rfl, rfl, hy, hv, hquote⟩

/-- Both are a word, up to letter case, or neither is. -/
theorem same (h : Similar a b) : Text.same a w = Text.same b w := by
  have hsame : ∀ {a b : Text}, Similar a b → Text.same a w = true → Text.same b w = true := fun {a b} h ha => by
    rwa [← h.eq_of_no_quote (isQuote_of_lower_eq (by simpa [Text.same] using ha) hw)]
  rw [Bool.eq_iff_iff]
  exact ⟨hsame h, hsame h.symm⟩

/-- A keyword stands at the start of both or of neither. -/
theorem startsKeyword (h : Similar a b) (before : Option Char) :
    startsKeyword w before a = startsKeyword w before b := by
  have hstarts : ∀ {a b : Text}, Similar a b →
      SqlDialect.startsKeyword w before a = true → SqlDialect.startsKeyword w before b = true := fun {a b} h ha => by
    obtain ⟨v, x, y, rfl, rfl, hxy, hv, -⟩ := h.starts hw (starts_of_startsKeyword ha)
    have hstarts : Text.starts w (v ++ y) = true := starts_iff.mpr ⟨v, y, rfl, hv⟩
    rw [SqlDialect.startsKeyword, Bool.and_eq_true, Bool.and_eq_true, ← length_eq_of_lower_eq hv, List.drop_left] at ha ⊢
    rw [← hxy.head?]
    exact ⟨⟨hstarts, ha.1.2⟩, ha.2⟩
  rw [Bool.eq_iff_iff]
  exact ⟨hstarts h, hstarts h.symm⟩

end Similar

/-! ## Spaces -/

theorem isSpace_of_isQuote {c : Char} (h : isQuote c = true) : isSpace c = false := by
  simp only [isQuote, Bool.or_eq_true, decide_eq_true_eq] at h
  rcases h with (rfl | rfl) | rfl <;> decide

theorem isBlank_of_isQuote {c : Char} (h : isQuote c = true) : isBlank c = false := by
  rw [Bool.eq_false_iff]
  intro hb
  have hs := isSpace_of_isQuote h
  rw [isSpace_of_isBlank hb] at hs
  cases hs

namespace Similar

variable {a b : Text}

/-- Characters of a class without quotes are taken from both or from neither. -/
theorem dropWhile {p : Char → Bool} (hp : ∀ c, isQuote c = true → p c = false) (h : Similar a b) :
    a.takeWhile p = b.takeWhile p ∧ Similar (a.dropWhile p) (b.dropWhile p) := by
  obtain ⟨ps, qs, h, rfl, rfl⟩ := h
  induction h with
  | nil => exact ⟨rfl, nil⟩
  | code hc h ih =>
    simp only [textOf_cons, Piece.text, List.singleton_append, List.takeWhile_cons, List.dropWhile_cons]
    split
    · exact ⟨by rw [ih.1], ih.2⟩
    · exact ⟨rfl, h.similar.cons hc⟩
  | @literal q _ _ _ _ hq hx hy hl h =>
    have hsimilar := (Twins.literal hq hx hy hl h).similar
    simp only [textOf_cons, Piece.text, List.cons_append, List.takeWhile_cons, List.dropWhile_cons, hp q hq,
      Bool.false_eq_true, if_false] at hsimilar ⊢
    exact ⟨trivial, hsimilar⟩

theorem trimEnd (h : Similar a b) : Similar (Text.trimEnd a) (Text.trimEnd b) := by
  obtain ⟨ps, qs, h, rfl, rfl⟩ := h
  induction h with
  | nil => exact nil
  | @code c ps qs hc h ih =>
    have hstep : ∀ t : Text, Text.trimEnd (c :: t) =
        if Text.trimEnd t = [] ∧ isSpace c = true then [] else c :: Text.trimEnd t := fun t => by
      rw [Text.trimEnd]
      cases Text.trimEnd t <;> simp
    rw [textOf_cons, textOf_cons, Piece.text, List.singleton_append, List.singleton_append, hstep, hstep]
    simp only [ih.eq_nil_iff]
    split
    · exact nil
    · exact ih.cons hc
  | @literal q x y ps qs hq hx hy hl h ih =>
    have hend : ∀ z : Text, (q :: (z ++ [q])).getLast?.all (fun c => !isSpace c) = true := fun z => by
      simp [List.getLast?_cons, isSpace_of_isQuote hq]
    rw [textOf_cons, textOf_cons, Piece.text, Piece.text, trimEnd_append (hend x), trimEnd_append (hend y)]
    have hliteral : Similar (q :: (x ++ [q])) (q :: (y ++ [q])) :=
      ⟨_, _, .literal hq hx hy hl .nil, by simp [Piece.text], by simp [Piece.text]⟩
    exact hliteral.append ih

/-- The texts without the spaces at their ends. -/
theorem trim (h : Similar a b) : Similar (Text.trim a) (Text.trim b) :=
  (h.dropWhile fun _ => isSpace_of_isQuote).2.trimEnd

end Similar

/-! ## Reading similar texts -/

namespace Twins

variable {ps qs : List Piece}

/-- What is read as one of two twins makes the other one be read as itself. -/
theorem pieces_eq (h : Twins ps qs) (hp : pieces (textOf ps) = ps) : pieces (textOf qs) = qs := by
  induction h with
  | nil => exact pieces_nil
  | @code c ps qs hc h ih =>
    rw [textOf_cons, Piece.text, List.singleton_append] at hp
    obtain ⟨-, hr, hps⟩ := pieces_eq_code hp
    rw [regionTail?_eq_none_iff, literalTail?_eq_none_iff, commentTail?_eq_none_iff] at hr
    have hsimilar := h.similar
    have hr' : regionTail? c (textOf qs) = none := by
      rw [regionTail?_eq_none_iff, literalTail?_eq_none_iff, commentTail?_eq_none_iff, ← hsimilar.head?]
      refine ⟨fun hq => absurd hq (by simp [hc]), hr.2.1, hr.2.2.1, fun he hdash => ?_⟩
      have hblank := hr.2.2.2 he hdash
      obtain ⟨u, hu⟩ := List.head?_eq_some_iff.mp hdash
      rw [hu] at hsimilar hblank
      obtain ⟨u', hu', htail⟩ := hsimilar.tail (by decide)
      rwa [hu', List.tail_cons, ← htail.head?]
    rw [textOf_cons, Piece.text, List.singleton_append, pieces_code hr', ih hps]
  | @literal q x y ps qs hq hx hy hl h ih =>
    rw [textOf_cons, Piece.text, reads_literal hq hx, List.singleton_append, List.cons.injEq] at hp
    rw [textOf_cons, Piece.text, reads_literal hq hy, ih hp.2, List.singleton_append]

/-- Twins hold no comment, and no quote outside of a literal. -/
theorem isCodeOrLiteral (h : Twins ps qs) : ∀ p ∈ ps, p.IsCodeOrLiteral := by
  induction h with
  | nil => simp
  | code hc _ ih => exact List.forall_mem_cons.mpr ⟨hc, ih⟩
  | literal hq hx _ _ _ ih => exact List.forall_mem_cons.mpr ⟨⟨_, _, hq, hx, rfl⟩, ih⟩

end Twins

/-- **Similar texts are read as twins**, if no comment stands in one of them. -/
theorem Similar.twins {a b : Text} (h : Similar a b) (hc : ∀ t, .region .comment t ∉ pieces a) :
    Twins (pieces a) (pieces b) := by
  obtain ⟨ps, qs, h, rfl, rfl⟩ := h
  have hp := pieces_of_no_comment h.isCodeOrLiteral hc
  rwa [hp, h.pieces_eq hp]

/-! ## Searches -/

namespace Twins

variable {ps qs : List Piece}

/-- **A search** that finds something in one list of pieces finds it between twins in both. -/
theorem firstIn {p : Option Char → Text → Bool} (hp : ∀ before a b, Similar a b → p before a = p before b)
    (h : Twins ps qs) (before : Option Char) :
    firstIn p before ps = none ∧ firstIn p before qs = none ∨
      ∃ ms ns ms' ns', ps = ms ++ ns ∧ qs = ms' ++ ns' ∧ Twins ms ms' ∧ Twins ns ns' ∧
        firstIn p before ps = some (textOf ms).length ∧ firstIn p before qs = some (textOf ms').length := by
  induction h generalizing before with
  | nil => exact .inl ⟨rfl, rfl⟩
  | @code c ps qs hc h ih =>
    have hsame := hp before _ _ (h.similar.cons hc)
    simp only [SqlDialect.firstIn, ← hsame]
    split
    · exact .inr ⟨[], _, [], _, rfl, rfl, .nil, .code hc h, rfl, rfl⟩
    · rcases ih (some c) with ⟨hps, hqs⟩ | ⟨ms, ns, ms', ns', rfl, rfl, hms, hns, hps, hqs⟩
      · exact .inl ⟨by rw [hps]; rfl, by rw [hqs]; rfl⟩
      · refine .inr ⟨.code c :: ms, ns, .code c :: ms', ns', rfl, rfl, .code hc hms, hns, ?_, ?_⟩
        · rw [hps]; simp [Piece.text, Nat.add_comm]
        · rw [hqs]; simp [Piece.text, Nat.add_comm]
  | @literal q x y ps qs hq hx hy hl h ih =>
    have hlast : ∀ z : Text, (q :: (z ++ [q])).getLast?.or before = some q := fun z => by simp [List.getLast?_cons]
    simp only [SqlDialect.firstIn, hlast]
    rcases ih (some q) with ⟨hps, hqs⟩ | ⟨ms, ns, ms', ns', rfl, rfl, hms, hns, hps, hqs⟩
    · exact .inl ⟨by rw [hps]; rfl, by rw [hqs]; rfl⟩
    · refine .inr ⟨_ :: ms, ns, _ :: ms', ns', rfl, rfl, .literal hq hx hy hl hms, hns, ?_, ?_⟩
      · rw [hps, textOf_cons, List.length_append, Nat.add_comm]; rfl
      · rw [hqs, textOf_cons, List.length_append, Nat.add_comm]; rfl

end Twins

section Texts

variable {a b : Text}

/-- **A keyword** is found in both texts or in neither, and what stands in front of it and behind it is similar. -/
theorem Twins.findKeyword {w : Text} (hw : ∀ c ∈ w, isQuote c = false) (h : Twins (pieces a) (pieces b))
    (before : Option Char) :
    findKeyword w before a = none ∧ findKeyword w before b = none ∨
      ∃ n m, findKeyword w before a = some n ∧ findKeyword w before b = some m ∧ Similar (a.take n) (b.take m) ∧
        Similar (a.take (n + w.length)) (b.take (m + w.length)) ∧
        Similar (a.drop (n + w.length)) (b.drop (m + w.length)) := by
  rw [findKeyword_eq_firstIn, findKeyword_eq_firstIn]
  rcases h.firstIn (fun before _ _ hs => hs.startsKeyword hw before) before with
    hnone | ⟨ms, ns, ms', ns', ha, hb, hms, hns, hn, hm⟩
  · exact .inl hnone
  · obtain ⟨_, hs, -⟩ := findKeyword_startsKeyword (findKeyword_eq_firstIn w before a ▸ hn)
    have hfront := hms.similar
    have hrest := hns.similar
    rw [← take_of_pieces ha rfl, ← take_of_pieces hb rfl] at hfront
    rw [← drop_of_pieces ha rfl, ← drop_of_pieces hb rfl] at hrest
    obtain ⟨v, x, y, hx, hy, hxy, hv, hquote⟩ := hrest.starts hw (starts_of_startsKeyword hs)
    refine .inr ⟨_, _, hn, hm, hfront, ?_, ?_⟩
    · rw [List.take_add, List.take_add, hx, hy, ← length_eq_of_lower_eq hv, List.take_left, List.take_left]
      exact hfront.append (.refl hquote)
    · rw [← List.drop_drop, ← List.drop_drop, hx, hy, ← length_eq_of_lower_eq hv, List.drop_left, List.drop_left]
      exact hxy

/-- A closing bracket is found behind twins. -/
theorem Twins.closingIn {o : Char} (h : Twins (pieces a) (pieces b)) :
    closingIn [o] a = none ∧ closingIn [o] b = none ∨
      ∃ qs d rs qs' rs', pieces a = qs ++ .code d :: rs ∧ pieces b = qs' ++ .code d :: rs' ∧ Twins qs qs' ∧
        Twins rs rs' ∧ SqlDialect.nest [] qs = some [] ∧ openerOf? d = some o ∧
        closingIn [o] a = some (textOf qs).length ∧ closingIn [o] b = some (textOf qs').length := by
  have hfound : ∀ {a b : Text} {n : Nat}, Twins (pieces a) (pieces b) → SqlDialect.closingIn ([] ++ [o]) a = some n →
      ∃ qs d rs qs' rs', pieces a = qs ++ .code d :: rs ∧ pieces b = qs' ++ .code d :: rs' ∧ Twins qs qs' ∧
        Twins rs rs' ∧ SqlDialect.nest [] qs = some [] ∧ openerOf? d = some o ∧ (textOf qs).length = n ∧
        SqlDialect.closingIn ([] ++ [o]) b = some (textOf qs').length := by
    intro a b n h hn
    obtain ⟨qs, d, rs, ha, hl, hqs, hd⟩ := closingIn_iff.mp hn
    rw [ha] at h
    obtain ⟨qs', _, hb, htwins, hrest⟩ := h.split
    cases hrest with
    | code _ hrs =>
      have hqs' := hqs
      rw [htwins.nest] at hqs'
      exact ⟨qs, d, rs, qs', _, ha, hb, htwins, hrs, hqs, hd, hl, closingIn_iff.mpr ⟨qs', d, _, hb, rfl, hqs', hd⟩⟩
  cases ha : SqlDialect.closingIn [o] a with
  | some n =>
    obtain ⟨qs, d, rs, qs', rs', h1, h2, h3, h4, h5, h6, rfl, h8⟩ := hfound h ha
    exact .inr ⟨qs, d, rs, qs', rs', h1, h2, h3, h4, h5, h6, rfl, h8⟩
  | none =>
    cases hb : SqlDialect.closingIn [o] b with
    | none => exact .inl ⟨rfl, rfl⟩
    | some n =>
      obtain ⟨_, _, _, _, _, -, -, -, -, -, -, -, hnone⟩ := hfound h.symm hb
      rw [List.nil_append, ha] at hnone
      cases hnone

end Texts

/-- **The parts** between separators are similar. -/
theorem Twins.splitPieces {ps qs : List Piece} (h : Twins ps qs) (sep : Char) (depth : Nat) :
    Similar (splitPieces sep depth ps).1 (splitPieces sep depth qs).1 ∧
      List.Forall₂ Similar (splitPieces sep depth ps).2 (splitPieces sep depth qs).2 := by
  induction h generalizing depth with
  | nil => exact ⟨.nil, .nil⟩
  | code hc _ ih =>
    simp only [SqlDialect.splitPieces]
    split
    · exact ⟨(ih _).1.cons hc, (ih _).2⟩
    · split
      · exact ⟨(ih _).1.cons hc, (ih _).2⟩
      · split
        · exact ⟨.nil, .cons (ih _).1 (ih _).2⟩
        · exact ⟨(ih _).1.cons hc, (ih _).2⟩
  | literal hq hx hy hl _ ih =>
    have hliteral := (Twins.literal hq hx hy hl .nil).similar
    simp only [textOf_cons, textOf_nil, List.append_nil, Piece.text] at hliteral
    exact ⟨hliteral.append (ih depth).1, (ih depth).2⟩

end SqlDialect
