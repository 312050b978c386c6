import SqlDialect.Proofs.FunctionName

/-!
# Renaming by tokens

Cut into calls, other words and other pieces, a text is renamed token by token: each renaming replaces the names of
calls and keeps all else. So renaming one function after the other is one replacement of names, and it does not
matter in which order.

* `IsTokens.rename`: a text with other names in its calls is read as the same tokens with these names.
* `IsTokens.renameFrom_eq`: a renaming replaces the names of calls.
* `IsTokens.convert`: all renamings together replace them once.
* `newName_newName`: no function is renamed again.
-/

namespace SqlDialect.FunctionName

/-! ## Tokens -/

/-- A name with the parenthesis behind it, another word, or a piece that belongs to no word. -/
inductive Token where
  | call (name : Text)
  | word (name : Text)
  | piece (p : Piece)

/-- The pieces of a token. -/
def Token.toPieces : Token → List Piece
  | call v => v.map .code ++ [.code '(']
  | word v => v.map .code
  | piece p => [p]

/-- The token with another name, if it is a call. -/
def Token.rename (f : Text → Text) : Token → Token
  | call v => call (f v)
  | word v => word v
  | piece p => piece p

/-- The pieces of the tokens. -/
def piecesOf (ts : List Token) : List Piece := ts.flatMap Token.toPieces

@[simp] theorem piecesOf_nil : piecesOf [] = [] := rfl

@[simp] theorem piecesOf_cons (t : Token) (ts : List Token) : piecesOf (t :: ts) = t.toPieces ++ piecesOf ts := rfl

@[simp] theorem piecesOf_append (ts us : List Token) : piecesOf (ts ++ us) = piecesOf ts ++ piecesOf us := by
  simp [piecesOf]

theorem textOf_call (v : Text) : textOf (Token.call v).toPieces = v ++ ['('] := by
  simp [Token.toPieces, textOf_map_code, Piece.text]

theorem textOf_word (v : Text) : textOf (Token.word v).toPieces = v := textOf_map_code v

theorem textOf_piece (p : Piece) : textOf (Token.piece p).toPieces = p.text := by simp [Token.toPieces]

/-- Does a word in front of the tokens end there, and without a parenthesis? -/
def EndsWord : List Token → Prop
  | [] => True
  | .piece p :: _ => p ≠ .code '('
  | _ :: _ => False

/-- No word goes on into the tokens. -/
def StartsOutsideWord : List Token → Prop
  | [] => True
  | .piece _ :: _ => True
  | _ :: _ => False

/-- Is the piece a character of a word? -/
def isWordPiece : Piece → Bool
  | .code c => isWord c
  | .region _ _ => false

/-- The words are whole, and those in front of a parenthesis are calls. -/
inductive Whole : List Token → Prop where
  | nil : Whole []
  | call {v : Text} {ts : List Token} : IsName v → Whole ts → Whole (.call v :: ts)
  | word {v : Text} {ts : List Token} : IsName v → EndsWord ts → Whole ts → Whole (.word v :: ts)
  | piece {p : Piece} {ts : List Token} : isWordPiece p = false → Whole ts → Whole (.piece p :: ts)

/-- Every list of pieces is made up of tokens. -/
theorem exists_whole (ps : List Piece) : ∃ ts, Whole ts ∧ piecesOf ts = ps := by
  induction ps with
  | nil => exact ⟨[], .nil, rfl⟩
  | cons p ps ih =>
    obtain ⟨ts, hts, rfl⟩ := ih
    by_cases hp : isWordPiece p = true
    · cases p with
      | region kind t => cases hp
      | code c =>
        have hc : IsName [c] := ⟨by simp, by simpa [isWordPiece] using hp⟩
        have hcons : ∀ {v : Text}, IsName v → IsName (c :: v) := fun hv => ⟨by simp, by simpa [isWordPiece] using ⟨hp, hv.2⟩⟩
        cases hts with
        | nil => exact ⟨[.word [c]], .word hc trivial .nil, rfl⟩
        | call hv hts => exact ⟨.call (c :: _) :: _, .call (hcons hv) hts, rfl⟩
        | word hv hend hts => exact ⟨.word (c :: _) :: _, .word (hcons hv) hend hts, rfl⟩
        | @piece q ts hq hts =>
          by_cases hcall : q = .code '('
          · exact ⟨.call [c] :: ts, .call hc hts, by rw [hcall]; rfl⟩
          · exact ⟨.word [c] :: .piece q :: ts, .word hc hcall (.piece hq hts), rfl⟩
    · exact ⟨.piece p :: ts, .piece (by simpa using hp) hts, rfl⟩

/-- The text is read as the tokens. -/
structure IsTokens (text : Text) (ts : List Token) : Prop where
  whole : Whole ts
  pieces_eq : pieces text = piecesOf ts

theorem exists_isTokens (text : Text) : ∃ ts, IsTokens text ts :=
  (exists_whole (pieces text)).imp fun _ h => ⟨h.1, h.2.symm⟩

namespace IsTokens

variable {text u v t : Text} {ts : List Token}

theorem textOf_eq (h : IsTokens text ts) : textOf (piecesOf ts) = text := by rw [← h.pieces_eq, textOf_pieces]

/-- What stands behind the first token is read as the others. -/
theorem tail {x : Token} (h : IsTokens text (x :: ts)) : IsTokens (textOf (piecesOf ts)) ts :=
  ⟨by cases h.whole <;> assumption, pieces_textOf h.pieces_eq⟩

theorem text_cons {x : Token} (h : IsTokens text (x :: ts)) :
    text = textOf x.toPieces ++ textOf (piecesOf ts) := by
  rw [← h.textOf_eq, piecesOf_cons, textOf_append]

/-- The first piece is read in front of what stands behind it. -/
theorem pieces_piece {p : Piece} (h : IsTokens text (.piece p :: ts)) :
    pieces (p.text ++ textOf (piecesOf ts)) = p :: pieces (textOf (piecesOf ts)) := by
  have hp := h.pieces_eq
  rw [h.text_cons, textOf_piece] at hp
  rw [hp, h.tail.pieces_eq]
  rfl

theorem call (hv : IsName v) (h : IsTokens u ts) : IsTokens (v ++ '(' :: u) (.call v :: ts) := by
  refine ⟨.call hv h.whole, ?_⟩
  rw [reads_word hv.2, pieces_code (regionTail?_of_ne (by decide) (by decide) (by decide) (by decide) u), h.pieces_eq]
  simp [Token.toPieces]

theorem word (hv : IsName v) (hend : EndsWord ts) (h : IsTokens u ts) : IsTokens (v ++ u) (.word v :: ts) := by
  refine ⟨.word hv hend h.whole, ?_⟩
  rw [reads_word hv.2, h.pieces_eq]
  rfl

end IsTokens

/-! ## Texts that differ in their words -/

/-- The texts differ in how words are spelled only. -/
inductive Alike : Text → Text → Prop where
  | nil : Alike [] []
  | char (c : Char) {u u' : Text} : Alike u u' → Alike (c :: u) (c :: u')
  | word {v v' u u' : Text} : IsName v → IsName v' → Alike u u' → Alike (v ++ u) (v' ++ u')

namespace Alike

variable {u u' : Text} {c : Char}

theorem symm (h : Alike u u') : Alike u' u := by
  induction h with
  | nil => exact .nil
  | char c _ ih => exact .char c ih
  | word hv hv' _ ih => exact .word hv' hv ih

theorem append_left (x : Text) (h : Alike u u') : Alike (x ++ u) (x ++ u') := by
  induction x with
  | nil => exact h
  | cons c x ih => exact .char c ih

theorem eq_nil (h : Alike u []) : u = [] := by
  generalize he : ([] : Text) = e at h
  cases h with
  | nil => rfl
  | char => cases he
  | word _ hv' _ => exact absurd (List.append_eq_nil_iff.mp he.symm).1 hv'.1

/-- A character that belongs to no word stands at the start of both. -/
theorem tail {w : Text} (h : Alike (c :: w) u') (hc : isWord c = false) : ∃ w', u' = c :: w' ∧ Alike w w' := by
  generalize he : c :: w = e at h
  cases h with
  | nil => cases he
  | char d h =>
    cases he
    exact ⟨_, rfl, h⟩
  | @word v v' u u' hv _ _ =>
    obtain ⟨d, v, rfl⟩ := List.exists_cons_of_ne_nil hv.1
    have hd := hv.2 d List.mem_cons_self
    rw [← (List.cons.inj he).1, hc] at hd
    cases hd

theorem mem (h : Alike u u') (hc : isWord c = false) (hm : c ∈ u) : c ∈ u' := by
  induction h with
  | nil => exact hm
  | char d _ ih => exact (List.mem_cons.mp hm).elim (fun e => by simp [e]) fun hm => List.mem_cons_of_mem _ (ih hm)
  | word hv _ _ ih =>
    rcases List.mem_append.mp hm with hm | hm
    · rw [hv.2 c hm] at hc
      cases hc
    · exact List.mem_append_right _ (ih hm)

/-- What opens no region in front of one opens none in front of the other. -/
theorem regionTail?_none (h : Alike u u') (hr : regionTail? c u = none) (hc : isWord c = false) :
    regionTail? c u' = none := by
  simp only [regionTail?_eq_none_iff, literalTail?_eq_none_iff, commentTail?_eq_none_iff] at hr ⊢
  obtain ⟨hquote, hhash, hblock, hline⟩ := hr
  have hhead : ∀ {d : Char}, isWord d = false → u'.head? = some d → ∃ w w', u = d :: w ∧ u' = d :: w' ∧ Alike w' w := by
    intro d hd he
    obtain ⟨w', rfl⟩ := List.head?_eq_some_iff.mp he
    obtain ⟨w, rfl, hw⟩ := h.symm.tail hd
    exact ⟨w, w', rfl, rfl, hw⟩
  refine ⟨fun hq hm => hquote hq (h.symm.mem hc hm), hhash, fun he hstar => ?_, fun he hdash => ?_⟩
  · obtain ⟨w, w', rfl, -, -⟩ := hhead rfl hstar
    exact hblock he rfl
  · obtain ⟨w, w', rfl, rfl, hw⟩ := hhead rfl hdash
    have hblank := hline he rfl
    rw [Bool.eq_false_iff] at hblank ⊢
    intro hb
    apply hblank
    cases w' with
    | nil => rw [hw.symm.eq_nil]; rfl
    | cons d w' =>
      have hd : isBlank d = true := by simpa using hb
      obtain ⟨w, rfl, -⟩ := hw.tail (isWord_of_isBlank hd)
      exact hb

/-- A region in front of one is a region in front of the other. -/
theorem regionTail?_some {a : Text} {kind : RegionKind} (h : Alike u u')
    (hr : regionTail? c (a ++ u) = some (kind, a.length)) : regionTail? c (a ++ u') = some (kind, a.length) := by
  by_cases hu : u = []
  · subst hu
    rwa [h.symm.eq_nil]
  · by_cases hline : u.head? = some '\n'
    · obtain ⟨w, rfl⟩ := List.head?_eq_some_iff.mp hline
      obtain ⟨w', rfl, -⟩ := h.tail (by decide)
      exact regionTail?_append_line hr w'
    · exact regionTail?_append hr (Nat.le_refl _) hu (fun _ _ _ => hline) u'

end Alike

/-! ## Other names in the calls -/

/-- Under other names the words are whole too. -/
theorem Whole.rename {ts : List Token} (h : Whole ts) {f : Text → Text} (hf : ∀ v, IsName v → IsName (f v)) :
    Whole (ts.map (Token.rename f)) := by
  induction h with
  | nil => exact .nil
  | call hv _ ih => exact .call (hf _ hv) ih
  | @word v ts hv hend _ ih =>
    refine .word hv ?_ ih
    cases ts with
    | nil => trivial
    | cons t ts => cases t <;> exact hend
  | piece hp _ ih => exact .piece hp ih

theorem Whole.alike {ts : List Token} (h : Whole ts) {f : Text → Text} (hf : ∀ v, IsName v → IsName (f v)) :
    Alike (textOf (piecesOf ts)) (textOf (piecesOf (ts.map (Token.rename f)))) := by
  induction h with
  | nil => exact .nil
  | call hv _ ih => simpa [Token.rename, textOf_call] using Alike.word hv (hf _ hv) (ih.append_left ['('])
  | word _ _ _ ih => simpa [Token.rename, textOf_word] using ih.append_left _
  | piece _ _ ih => simpa [Token.rename, textOf_piece] using ih.append_left _

namespace IsTokens

variable {text : Text} {ts : List Token} {f : Text → Text}

/-- **A text with other names in its calls** is read as the same tokens with these names. -/
theorem rename (h : IsTokens text ts) (hf : ∀ v, IsName v → IsName (f v)) :
    IsTokens (textOf (piecesOf (ts.map (Token.rename f)))) (ts.map (Token.rename f)) := by
  obtain ⟨hts, hp⟩ := h
  induction hts generalizing text with
  | nil => exact ⟨.nil, pieces_nil⟩
  | call hv _ ih =>
    rw [List.map_cons, piecesOf_cons, textOf_append, Token.rename, textOf_call, List.append_assoc]
    exact .call (hf _ hv) (ih (pieces_textOf hp))
  | @word v ts hv hend hts ih =>
    have hwhole := (Whole.word hv hend hts).rename hf
    rw [List.map_cons, piecesOf_cons, textOf_append, Token.rename, textOf_word]
    refine ⟨hwhole, ?_⟩
    rw [reads_word hv.2, (ih (pieces_textOf hp)).pieces_eq]
    rfl
  | @piece p ts hnot hts ih =>
    have hrest := ih (pieces_textOf hp)
    have halike := hts.alike hf
    rw [List.map_cons, piecesOf_cons, textOf_append, Token.rename, textOf_piece]
    refine ⟨.piece hnot hrest.whole, ?_⟩
    rw [piecesOf_cons, ← hrest.pieces_eq, textOf_pieces]
    generalize textOf (piecesOf (ts.map (Token.rename f))) = u' at halike
    have hp' := (IsTokens.mk (.piece hnot hts) hp).pieces_piece
    cases p with
    | code c =>
      obtain ⟨-, hr, -⟩ := pieces_eq_code hp'
      exact pieces_code (halike.regionTail?_none hr hnot)
    | region kind t =>
      obtain ⟨c, a, rfl⟩ := List.exists_cons_of_ne_nil (region_ne_nil (hp'.symm ▸ List.mem_cons_self))
      have hr := halike.regionTail?_some (regionTail?_of_pieces hp')
      rw [Piece.text, List.cons_append, pieces_region hr, List.take_left, List.drop_left]
      rfl

/-- What stands behind a word or a region and belongs to no word. -/
theorem head (h : IsTokens text ts) (hstarts : StartsOutsideWord ts) : text.head?.any isWord = false := by
  cases text with
  | nil => rfl
  | cons c rest =>
    cases hr : regionTail? c rest with
    | some kn =>
      rw [List.head?_cons, Option.any_some, Bool.eq_false_iff]
      intro hc
      rw [regionTail?_of_isWord hc] at hr
      cases hr
    | none =>
      obtain ⟨hts, hp⟩ := h
      rw [pieces_code hr] at hp
      cases hts with
      | nil => cases hp
      | call | word => exact hstarts.elim
      | piece hnot =>
        rw [← (List.cons.inj hp).1] at hnot
        exact hnot

theorem head_ne (h : IsTokens text ts) (hends : EndsWord ts) : text.head? ≠ some '(' := by
  intro he
  obtain ⟨rest, rfl⟩ := List.head?_eq_some_iff.mp he
  obtain ⟨hts, hp⟩ := h
  rw [pieces_code (regionTail?_of_ne (by decide) (by decide) (by decide) (by decide) rest)] at hp
  cases hts with
  | nil => cases hp
  | call | word => exact hends.elim
  | piece => exact hends (List.cons.inj hp).1.symm

theorem head_word (h : IsTokens text ts) (hstarts : ¬ StartsOutsideWord ts) : text.head?.any isWord = true := by
  have hname : ∀ {v : Text}, IsName v → ∀ u, (v ++ u).head?.any isWord = true := fun hv u => by
    obtain ⟨c, v, rfl⟩ := List.exists_cons_of_ne_nil hv.1
    exact hv.2 c List.mem_cons_self
  obtain ⟨hts, hp⟩ := h
  cases hts with
  | nil => exact absurd trivial hstarts
  | call hv hts =>
    rw [(IsTokens.mk (.call hv hts) hp).text_cons, textOf_call, List.append_assoc]
    exact hname hv _
  | word hv hend hts =>
    rw [(IsTokens.mk (.word hv hend hts) hp).text_cons, textOf_word]
    exact hname hv _
  | piece => exact absurd trivial hstarts

end IsTokens

theorem EndsWord.startsOutsideWord {ts : List Token} (h : EndsWord ts) : StartsOutsideWord ts := by
  cases ts with
  | nil => trivial
  | cons t ts => cases t <;> trivial

/-! ## One function -/

/-- The name that a renaming gives to a call. -/
def Rename.apply (r : Rename) (v : Text) : Text :=
  if Text.lower v = Text.lower r.old.dropLast then r.new.dropLast else v

theorem Rename.isName_apply {r : Rename} (hr : r ∈ renames) {v : Text} (hv : IsName v) : IsName (r.apply v) := by
  rw [Rename.apply]
  split
  · exact (renames_spelled r hr).2.2
  · exact hv

section Search

variable {w : Text} {before : Option Char} {v u : Text}

/-- A name with its parenthesis stands where the word is this name, and a parenthesis follows it. -/
theorem startsKeyword_word_iff (hw : IsName w) (hv : IsName v) (hu : u.head?.any isWord = false) :
    startsKeyword (w ++ ['(']) before (v ++ u) = true ↔
      before.any isWord = false ∧ u.head? = some '(' ∧ Text.lower v = Text.lower w := by
  rw [startsKeyword_call_iff hw]
  refine and_congr_right fun _ => ⟨?_, ?_⟩
  · rintro ⟨x, y, he, hx⟩
    have hxv : v = x := by
      rw [← takeWhile_whole hv.2 hu, he, takeWhile_whole (isWord_of_lower_eq hx hw.2) (r := '(' :: y) rfl]
    subst hxv
    exact ⟨by rw [List.append_cancel_left he]; rfl, hx⟩
  · rintro ⟨hhead, hl⟩
    obtain ⟨y, rfl⟩ := List.head?_eq_some_iff.mp hhead
    exact ⟨v, y, rfl, hl⟩

/-- A word that is not sought is passed over. -/
theorem findKeyword_word (hw : IsName w) (hv : IsName v) (hno : startsKeyword (w ++ ['(']) before (v ++ u) = false) :
    findKeyword (w ++ ['(']) before (v ++ u) =
      (findKeyword (w ++ ['(']) (v.getLast?.or before) u).map (· + v.length) := by
  have hbehind : ∀ b t, isWord b = true → startsKeyword (w ++ ['(']) (some b) t = false := fun b t hb => by
    rw [Bool.eq_false_iff, Ne, startsKeyword_call_iff hw]
    rintro ⟨h, -⟩
    rw [Option.any_some, hb] at h
    cases h
  rw [findKeyword_eq_firstIn, findKeyword_eq_firstIn, reads_word hv.2]
  obtain ⟨c, v, rfl⟩ := List.exists_cons_of_ne_nil hv.1
  have htext : textOf (v.map .code ++ pieces u) = v ++ u := by rw [textOf_append, textOf_map_code, textOf_pieces]
  rw [List.map_cons, List.cons_append, firstIn, htext, ← List.cons_append, if_neg (by rw [hno]; simp),
    firstIn_word hbehind (hv.2 c List.mem_cons_self) fun d hd => hv.2 d (List.mem_cons_of_mem _ hd), Option.map_map,
    List.getLast?_cons]
  cases v.getLast? <;> rfl

/-- A character that belongs to no word is passed over. -/
theorem findKeyword_code (hw : IsName w) {c : Char} (hr : regionTail? c u = none) (hc : isWord c = false) :
    findKeyword (w ++ ['(']) before (c :: u) = (findKeyword (w ++ ['(']) (some c) u).map (· + 1) := by
  have hno : ¬ startsKeyword (w ++ ['(']) before (c :: u) = true := by
    rw [startsKeyword_call_iff hw]
    rintro ⟨-, v, y, he, hv⟩
    cases v with
    | nil => exact hw.1 (List.map_eq_nil_iff.mp hv.symm)
    | cons d v =>
      have hd := isWord_of_lower_eq hv hw.2 d List.mem_cons_self
      rw [← (List.cons.inj he).1, hc] at hd
      cases hd
  rw [findKeyword, hr]
  exact if_neg hno

/-- A region is passed over. -/
theorem findKeyword_region {kind : RegionKind} {t : Text} (h : pieces (t ++ u) = .region kind t :: pieces u) :
    findKeyword w before (t ++ u) = (findKeyword w (t.getLast?.or before) u).map (· + t.length) := by
  rw [findKeyword_eq_firstIn, h, firstIn, ← findKeyword_eq_firstIn]

/-- What the search passes over stays as it is. -/
theorem renameFrom_append {r : Rename} (hr : r.old ≠ []) {b : Option Char} {x y : Text}
    (h : findKeyword r.old before (x ++ y) = (findKeyword r.old b y).map (· + x.length)) :
    renameFrom r before (x ++ y) = x ++ renameFrom r b y := by
  cases hy : findKeyword r.old b y with
  | none =>
    rw [hy] at h
    rw [renameFrom_of_none h, renameFrom_of_none hy]
  | some n =>
    rw [hy] at h
    have htake : (x ++ y).take (n + x.length) = x ++ y.take n := by
      rw [Nat.add_comm, List.take_length_add_append]
    have hdrop : (x ++ y).drop (n + x.length + r.old.length) = y.drop (n + r.old.length) := by
      rw [Nat.add_right_comm, Nat.add_comm, List.drop_length_add_append]
    rw [renameFrom_of_some hr h, renameFrom_of_some hr hy, htake, hdrop, List.append_assoc]

/-- The name of a call is replaced if it is the one that is renamed. -/
theorem renameFrom_callName {r : Rename} (hr : r ∈ renames) (hv : IsName v) (hb : before.any isWord = false) (u : Text) :
    renameFrom r before (v ++ '(' :: u) = r.apply v ++ '(' :: renameFrom r (some '(') u := by
  obtain ⟨⟨hold, hname⟩, hnew, -⟩ := renames_spelled r hr
  have hiff : startsKeyword (r.old.dropLast ++ ['(']) before (v ++ '(' :: u) = true ↔ _ :=
    startsKeyword_word_iff hname hv rfl
  rw [Rename.apply]
  by_cases hsame : Text.lower v = Text.lower r.old.dropLast
  · have hfound : findKeyword r.old before (v ++ '(' :: u) = some 0 := by
      have hs := hiff.mpr ⟨hb, rfl, hsame⟩
      obtain ⟨c, v, rfl⟩ := List.exists_cons_of_ne_nil hv.1
      rw [← hold] at hs
      rw [List.cons_append] at hs ⊢
      rw [findKeyword, regionTail?_of_isWord (hv.2 c List.mem_cons_self)]
      exact if_pos hs
    have hrename : renameFrom r before ([] ++ (v ++ '(' :: u)) = _ := renameFrom_name hr hfound hsame
    rw [if_pos hsame, ← List.nil_append (v ++ '(' :: u), hrename, List.nil_append]
    conv => lhs; rw [hnew]
    simp
  · have hno : startsKeyword (r.old.dropLast ++ ['(']) before (v ++ '(' :: u) = false :=
      Bool.eq_false_iff.mpr fun hs => hsame (hiff.mp hs).2.2
    have hfind := findKeyword_word hname hv hno
    rw [findKeyword_code hname (regionTail?_of_ne (by decide) (by decide) (by decide) (by decide) u) (by decide),
      Option.map_map, ← hold] at hfind
    rw [if_neg hsame, List.append_cons v '(' u, List.append_cons v '(' (renameFrom r (some '(') u)]
    refine renameFrom_append (by rw [hold]; simp) ?_
    rw [← List.append_cons, hfind]
    congr 1
    funext n
    simp only [Function.comp_apply, List.length_append, List.length_singleton]
    omega

end Search

/-- **A renaming replaces the names of calls**, if no word in front goes on into the text. -/
theorem IsTokens.renameFrom_eq {text : Text} {ts : List Token} (h : IsTokens text ts) {r : Rename} (hr : r ∈ renames)
    {before : Option Char} (hb : before.any isWord = false ∨ StartsOutsideWord ts) :
    renameFrom r before text = textOf (piecesOf (ts.map (Token.rename r.apply))) := by
  obtain ⟨⟨hold, hname⟩, -⟩ := renames_spelled r hr
  have hne : r.old ≠ [] := by rw [hold]; simp
  obtain ⟨hts, hp⟩ := h
  induction hts generalizing text before with
  | nil =>
    rw [show text = [] by rw [← textOf_pieces text, hp]; rfl, renameFrom_of_none (by simp [findKeyword])]
    rfl
  | @call v ts hv hts ih =>
    have h := IsTokens.mk (.call hv hts) hp
    have hbefore := hb.resolve_right id
    have hrest := @ih _ (some '(') (.inl (by decide)) h.tail.pieces_eq
    rw [h.text_cons, List.map_cons, piecesOf_cons, textOf_append, Token.rename, textOf_call, textOf_call, ← hrest,
      ← List.append_cons, renameFrom_callName hr hv hbefore, List.append_cons]
  | @word v ts hv hend hts ih =>
    have h := IsTokens.mk (.word hv hend hts) hp
    have hrest := @ih _ (v.getLast?.or before) (.inr hend.startsOutsideWord) h.tail.pieces_eq
    have hhead := h.tail.head hend.startsOutsideWord
    have hparen := h.tail.head_ne hend
    rw [h.text_cons, List.map_cons, piecesOf_cons, textOf_append, Token.rename, textOf_word, ← hrest]
    refine renameFrom_append hne ?_
    rw [hold]
    refine findKeyword_word hname hv (Bool.eq_false_iff.mpr fun hs => ?_)
    exact hparen ((startsKeyword_word_iff hname hv hhead).mp hs).2.1
  | @piece p ts hnot hts ih =>
    have h := IsTokens.mk (.piece hnot hts) hp
    have hp' := h.pieces_piece
    rw [h.text_cons, List.map_cons, piecesOf_cons, textOf_append, Token.rename, textOf_piece]
    cases p with
    | code c =>
      rw [← @ih _ (some c) (.inl hnot) h.tail.pieces_eq]
      refine renameFrom_append hne ?_
      rw [hold]
      exact findKeyword_code hname (pieces_eq_code hp').2.1 hnot
    | region kind t =>
      have hlast : (t.getLast?.or before).any isWord = false ∨ StartsOutsideWord ts := by
        by_cases hs : StartsOutsideWord ts
        · exact .inr hs
        · have hend := isWord_of_region hp' (h.tail.head_word hs)
          obtain ⟨c, a, rfl⟩ := List.exists_cons_of_ne_nil (region_ne_nil (hp'.symm ▸ List.mem_cons_self))
          rw [Piece.text, List.getLast?_eq_some_getLast (List.cons_ne_nil c a)] at hend
          rw [List.getLast?_eq_some_getLast (List.cons_ne_nil c a)]
          exact .inl hend
      rw [← ih hlast h.tail.pieces_eq]
      exact renameFrom_append hne (findKeyword_region hp')

/-! ## All functions -/

/-- The renaming of the function that a call names. -/
def renameOf? (v : Text) : Option Rename := renames.find? fun r => Text.lower v = Text.lower r.old.dropLast

/-- The name of a function in the embedded dialect. -/
def newName (v : Text) : Text := ((renameOf? v).map (·.new.dropLast)).getD v

theorem isName_newName {v : Text} (hv : IsName v) : IsName (newName v) := by
  rw [newName]
  cases h : renameOf? v with
  | none => exact hv
  | some r => exact (renames_spelled r (List.mem_of_find?_eq_some h)).2.2

/-- No function has a name that another one gets. -/
theorem new_ne_old : ∀ r ∈ renames, ∀ r' ∈ renames, Text.lower r.new.dropLast ≠ Text.lower r'.old.dropLast := by
  decide +kernel

/-- No function is renamed again. -/
theorem newName_newName (v : Text) : newName (newName v) = newName v := by
  cases h : renameOf? v with
  | none => rw [newName, newName, h, Option.map_none, Option.getD_none, h]; rfl
  | some r =>
    have hnone : renameOf? r.new.dropLast = none := by
      rw [renameOf?, List.find?_eq_none]
      simpa using new_ne_old r (List.mem_of_find?_eq_some h)
    rw [newName, newName, h, Option.map_some, Option.getD_some, hnone]
    rfl

/-- Renaming one function after the other renames each call once. -/
theorem foldl_apply (v : Text) : renames.foldl (fun v r => r.apply v) v = newName v := by
  have hkeep : ∀ (rs : List Rename) (v : Text), (∀ r ∈ rs, Text.lower v ≠ Text.lower r.old.dropLast) →
      rs.foldl (fun v r => r.apply v) v = v := by
    intro rs
    induction rs with
    | nil => exact fun _ _ => rfl
    | cons r rs ih =>
      intro v h
      rw [List.foldl_cons, Rename.apply, if_neg (h r List.mem_cons_self)]
      exact ih v fun r hr => h r (List.mem_cons_of_mem _ hr)
  have hfold : ∀ rs : List Rename, (∀ r ∈ rs, r ∈ renames) → rs.foldl (fun v r => r.apply v) v =
      ((rs.find? fun r => Text.lower v = Text.lower r.old.dropLast).map (·.new.dropLast)).getD v := by
    intro rs
    induction rs with
    | nil => exact fun _ => rfl
    | cons r rs ih =>
      intro hrs
      have hrs' : ∀ r ∈ rs, r ∈ renames := fun r hr => hrs r (List.mem_cons_of_mem _ hr)
      by_cases h : Text.lower v = Text.lower r.old.dropLast
      · rw [List.foldl_cons, Rename.apply, if_pos h, List.find?_cons_of_pos (by simpa using h)]
        exact hkeep rs _ fun r' hr' => new_ne_old r (hrs r List.mem_cons_self) r' (hrs' r' hr')
      · rw [List.foldl_cons, Rename.apply, if_neg h, List.find?_cons_of_neg (by simpa using h)]
        exact ih hrs'
  exact hfold renames fun _ hr => hr

/-- **All renamings together** give each call its new name, and the text is read as the same tokens with these. -/
theorem IsTokens.convert {text : Text} {ts : List Token} (h : IsTokens text ts) :
    IsTokens (convert text) (ts.map (Token.rename newName)) := by
  have hfold : ∀ (rs : List Rename) (text : Text) (ts : List Token), (∀ r ∈ rs, r ∈ renames) → IsTokens text ts →
      IsTokens (rs.foldl (fun text r => renameFrom r none text) text)
        (ts.map (Token.rename fun v => rs.foldl (fun v r => r.apply v) v)) := by
    intro rs
    induction rs with
    | nil =>
      intro text ts _ h
      have hid : Token.rename (fun v => v) = id := by
        funext t
        cases t <;> rfl
      simp only [List.foldl_nil, hid, List.map_id]
      exact h
    | cons r rs ih =>
      intro text ts hrs h
      have hr := hrs r List.mem_cons_self
      have hone := h.rename fun v hv => r.isName_apply hr hv
      have hbefore : (none : Option Char).any isWord = false ∨ StartsOutsideWord ts := .inl rfl
      rw [← h.renameFrom_eq hr hbefore] at hone
      have hall := ih _ _ (fun r hr => hrs r (List.mem_cons_of_mem _ hr)) hone
      rw [List.map_map] at hall
      have hcomp : Token.rename (fun v => rs.foldl (fun v r => r.apply v) v) ∘ Token.rename r.apply =
          Token.rename fun v => (r :: rs).foldl (fun v r => r.apply v) v := by
        funext t
        cases t <;> rfl
      rwa [hcomp] at hall
  have hall := hfold renames text ts (fun _ hr => hr) h
  rwa [funext foldl_apply] at hall

end SqlDialect.FunctionName
