import SqlDialect.Proofs.Bytes.Region
import SqlDialect.Proofs.FunctionName.Token
import SqlDialect.Proofs.TimeDifference.Twins

/-!
# The text of literals does not steer the rewriting

Two texts without comments and with all quotes closed *differ in literals* if their literals stand at the same offsets
and all bytes that stand strictly inside of none are the same. What the contents look like, a call, a comma, a bracket,
another quote or a comment, makes no difference to the conversion of TIMESTAMPDIFF calls and to the renaming of
functions: they fail on both texts in the same way, or give texts that again differ in literals.

* `FunctionName.convert_twins`: the renaming of functions.
* `differInLiterals_iff`: said of offsets and bytes, that is that the texts are read as twins.
* `convert_differInLiterals`: both stages.
-/

namespace SqlDialect

open Text

/-! ## Function names -/

namespace FunctionName

theorem isQuote_of_isName {v : Text} (h : IsName v) : ∀ c ∈ v, isQuote c = false := fun c hc =>
  (neutral_of_class (by decide) (h.2 c hc)).1

/-- The twins of tokens are tokens with the same calls and words, and twins under the new names too. -/
theorem Whole.twins {ts : List Token} (h : Whole ts) {qs : List Piece} (ht : Twins (piecesOf ts) qs) :
    ∃ us, Whole us ∧ piecesOf us = qs ∧ (EndsWord ts → EndsWord us) ∧
      Twins (piecesOf (ts.map (Token.rename newName))) (piecesOf (us.map (Token.rename newName))) := by
  have hname : ∀ {v : Text}, IsName v → ∀ {ps qs : List Piece}, Twins ps qs →
      Twins (v.map .code ++ ps) (v.map .code ++ qs) := fun hv => fun h =>
    (Twins.refl_map_code (isQuote_of_isName hv)).append h
  induction h generalizing qs with
  | nil =>
    cases ht
    exact ⟨[], .nil, rfl, id, .nil⟩
  | @call v ts hv hts ih =>
    rw [piecesOf_cons, Token.toPieces, List.append_assoc] at ht
    obtain ⟨qs', rfl, -, hparen⟩ := ht.of_map_code
    cases hparen with
    | code hc hrest =>
      obtain ⟨us, hus, rfl, -, htwins⟩ := ih hrest
      refine ⟨.call v :: us, .call hv hus, by simp [Token.toPieces], id, ?_⟩
      simpa [Token.rename, Token.toPieces] using hname (isName_newName hv) (.code hc htwins)
  | @word v ts hv hend hts ih =>
    rw [piecesOf_cons, Token.toPieces] at ht
    obtain ⟨qs', rfl, -, hrest⟩ := ht.of_map_code
    obtain ⟨us, hus, rfl, hends, htwins⟩ := ih hrest
    exact ⟨.word v :: us, .word hv (hends hend) hus, rfl, id, hname hv htwins⟩
  | @piece p ts hp hts ih =>
    rw [piecesOf_cons, Token.toPieces, List.singleton_append] at ht
    cases ht with
    | @code c _ _ hc ht =>
      obtain ⟨us, hus, rfl, -, htwins⟩ := ih ht
      exact ⟨.piece (.code c) :: us, .piece hp hus, rfl, id, .code hc htwins⟩
    | @literal q x y _ _ hq hx hy hl ht =>
      obtain ⟨us, hus, rfl, -, htwins⟩ := ih ht
      exact ⟨.piece (.region .literal (q :: (y ++ [q]))) :: us, .piece rfl hus, rfl, fun _ => by simp [EndsWord],
        .literal hq hx hy hl htwins⟩

/-- **The renaming of two texts** that differ within literals. -/
theorem convert_twins {a b : Text} (h : Twins (pieces a) (pieces b)) :
    Twins (pieces (convert a)) (pieces (convert b)) := by
  obtain ⟨ts, hts⟩ := exists_isTokens a
  rw [hts.pieces_eq] at h
  obtain ⟨us, hus, hb, -, htwins⟩ := hts.whole.twins h
  have hub : IsTokens b us := ⟨hus, hb.symm⟩
  rwa [hts.convert.pieces_eq, hub.convert.pieces_eq]

end FunctionName

/-! ## Bytes of characters -/

namespace Bytes

/-- The bytes of no character start those of another one. -/
theorem eq_of_bytes_start {c d : Char} (h : charBytes c <+: charBytes d) : c = d := by
  obtain ⟨l, ⟨r, hr⟩, hl⟩ := List.prefix_map_iff.mp h
  have hinj : ∀ x y, Char.ofUInt8 x = Char.ofUInt8 y → x = y := fun x y he => by
    rw [← UInt8.toNat_inj, ← toNat_ofUInt8, he, toNat_ofUInt8]
  obtain rfl := (List.map_inj_right hinj).mp hl
  -- a character is decoded from its bytes, whatever stands behind them
  have hc := ByteArray.utf8DecodeChar?_utf8EncodeChar_append (c := c) (b := r.toByteArray)
  have hd := ByteArray.utf8DecodeChar?_utf8EncodeChar_append (c := d) (b := [].toByteArray)
  rw [← List.toByteArray_append, hr] at hc
  rw [← List.toByteArray_append, List.append_nil, hc] at hd
  exact Option.some.inj hd

variable {a b : Text} {k : Nat}

theorem byte?_append_left (h : k < byteLength a) (b : Text) : byte? (a ++ b) k = byte? a k := by
  rw [byte?, bytes_append, List.getElem?_append_left (by rwa [length_bytes]), byte?]

theorem byte?_append_right (a b : Text) (k : Nat) : byte? (a ++ b) (byteLength a + k) = byte? b k := by
  rw [byte?, bytes_append, ← length_bytes, List.getElem?_append_right (Nat.le_add_right _ _), Nat.add_sub_cancel_left,
    byte?]

/-- Texts with the same bytes over their first characters start with the same character. -/
theorem eq_of_byte? {c d : Char} (h : ∀ k < c.utf8Size, byte? (c :: a) k = byte? (d :: b) k) : c = d := by
  have hprefix : charBytes c <+: charBytes d ++ bytes b := by
    rw [List.prefix_iff_getElem?]
    intro k hk
    have hbyte := h k (by rwa [← length_charBytes])
    rw [byte?, byte?, bytes_cons, bytes_cons, List.getElem?_append_left hk] at hbyte
    rw [← hbyte, List.getElem?_eq_getElem hk]
  rcases List.prefix_or_prefix_of_prefix hprefix (List.prefix_append _ _) with hcd | hdc
  · exact eq_of_bytes_start hcd
  · exact (eq_of_bytes_start hdc).symm

/-! ## Offsets of regions -/

/-- The offsets of the regions among pieces that stand behind `start` bytes. -/
def spansFrom (start : Nat) : List Piece → List Span
  | [] => []
  | p :: ps =>
    (if p.isCode then [] else [⟨start, start + byteLength p.text⟩]) ++ spansFrom (start + byteLength p.text) ps

theorem spans_eq_spansFrom (text : Text) : spans text = spansFrom 0 (pieces text) := by
  have hfrom : ∀ (ps : List Piece) (u : Text),
      (regionsFrom u.length ps).map (span (u ++ textOf ps)) = spansFrom (byteLength u) ps := by
    intro ps
    induction ps with
    | nil => exact fun _ => rfl
    | cons p ps ih =>
      intro u
      have hrest := ih (u ++ p.text)
      rw [List.length_append, byteLength_append, List.append_assoc] at hrest
      rw [spansFrom, textOf_cons, ← hrest]
      cases p with
      | code c => rfl
      | region kind t =>
        have hspan : span (u ++ (t ++ textOf ps)) ⟨kind, u.length, u.length + t.length⟩ =
            ⟨byteLength u, byteLength u + byteLength t⟩ := by
          rw [span, ← byteLength_left, byteOffset_left_add, List.take_left, byteLength_append]
        rw [regionsFrom, List.map_cons, Piece.text, hspan]
        rfl
  have h := hfrom (pieces text) []
  rwa [List.nil_append, textOf_pieces] at h

theorem le_of_mem_spansFrom {start : Nat} {ps : List Piece} {r : Span} (h : r ∈ spansFrom start ps) :
    start ≤ r.start := by
  induction ps generalizing start with
  | nil => cases h
  | cons p ps ih =>
    rw [spansFrom, List.mem_append] at h
    rcases h with h | h
    · split at h
      · cases h
      · exact Nat.le_of_eq (by rw [List.mem_singleton.mp h])
    · exact Nat.le_trans (Nat.le_add_right _ _) (ih h)

/-- Pieces behind `start` bytes that are as long, have their regions at the same offsets, and have the same bytes
strictly inside of none. -/
structure SameFrom (start : Nat) (ps qs : List Piece) : Prop where
  length : byteLength (textOf ps) = byteLength (textOf qs)
  spans : spansFrom start ps = spansFrom start qs
  byte : ∀ k < byteLength (textOf ps), (∀ r ∈ spansFrom start ps, ¬ (r.start < start + k ∧ start + k + 1 < r.stop)) →
    byte? (textOf ps) k = byte? (textOf qs) k

namespace SameFrom

variable {start : Nat} {p q : Piece} {ps qs : List Piece}

/-- Pieces of the same kind and length that agree outside, in front of such. -/
theorem cons (hkind : p.isCode = q.isCode) (hlen : byteLength p.text = byteLength q.text)
    (hbyte : ∀ k < byteLength p.text, (p.isCode = false → ¬ (0 < k ∧ k + 1 < byteLength p.text)) →
      byte? p.text k = byte? q.text k)
    (h : SameFrom (start + byteLength p.text) ps qs) : SameFrom start (p :: ps) (q :: qs) where
  length := by rw [textOf_cons, textOf_cons, byteLength_append, byteLength_append, hlen, h.length]
  spans := by rw [spansFrom, spansFrom, ← hkind, ← hlen, h.spans]
  byte k hk hout := by
    rw [textOf_cons, textOf_cons]
    rw [spansFrom] at hout
    by_cases hin : k < byteLength p.text
    · rw [byte?_append_left hin, byte?_append_left (hlen ▸ hin)]
      refine hbyte k hin fun hregion hinside => ?_
      refine hout ⟨start, start + byteLength p.text⟩ (by simp [hregion]) ?_
      simp only
      omega
    · obtain ⟨j, rfl⟩ := Nat.exists_eq_add_of_le (Nat.le_of_not_lt hin)
      rw [textOf_cons, byteLength_append] at hk
      rw [byte?_append_right, hlen, byte?_append_right]
      refine h.byte j (by omega) fun r hr => ?_
      rw [Nat.add_assoc start]
      exact hout r (List.mem_append_right _ hr)

/-- What stands behind the first pieces. -/
theorem tail (h : SameFrom start (p :: ps) (q :: qs)) (hkind : p.isCode = q.isCode)
    (hlen : byteLength p.text = byteLength q.text) : SameFrom (start + byteLength p.text) ps qs where
  length := by
    have := h.length
    rw [textOf_cons, textOf_cons, byteLength_append, byteLength_append] at this
    omega
  spans := by
    have := h.spans
    rw [spansFrom, spansFrom, ← hkind, ← hlen] at this
    exact List.append_cancel_left this
  byte k hk hout := by
    have hbyte := h.byte (byteLength p.text + k) (by rw [textOf_cons, byteLength_append]; omega) fun r hr => ?_
    · rwa [textOf_cons, textOf_cons, byte?_append_right, hlen, byte?_append_right] at hbyte
    · rw [spansFrom, List.mem_append] at hr
      rcases hr with hr | hr
      · split at hr
        · cases hr
        · rw [List.mem_singleton.mp hr]
          simp only
          omega
      · rw [← Nat.add_assoc]
        exact hout r hr

/-- The bytes of a character of code, and the first byte of a region. -/
theorem head (h : SameFrom start (p :: ps) qs) {k : Nat} (hk : k < byteLength p.text)
    (hfirst : p.isCode = true ∨ k = 0) : byte? (textOf (p :: ps)) k = byte? (textOf qs) k := by
  refine h.byte k (by rw [textOf_cons, byteLength_append]; omega) fun r hr => ?_
  rw [spansFrom, List.mem_append] at hr
  rcases hr with hr | hr
  · split at hr
    · cases hr
    · next hcode =>
      rw [List.mem_singleton.mp hr, hfirst.resolve_left hcode]
      simp
  · have := le_of_mem_spansFrom hr
    omega

end SameFrom

theorem byteLength_literal (q : Char) (x : Text) :
    byteLength (q :: (x ++ [q])) = q.utf8Size + byteLength x + q.utf8Size := by
  rw [byteLength, byteLength_append, byteLength, byteLength, Nat.add_zero, Nat.add_assoc]

/-- **Twins** agree outside of literals. -/
theorem SameFrom.of_twins {ps qs : List Piece} (h : Twins ps qs) (start : Nat) : SameFrom start ps qs := by
  induction h generalizing start with
  | nil => exact ⟨rfl, rfl, fun _ _ _ => rfl⟩
  | code _ _ ih => exact .cons rfl rfl (fun _ _ _ => rfl) (ih _)
  | @literal q x y _ _ hq _ _ hl _ ih =>
    have hsize : q.utf8Size = 1 := utf8Size_of_not_wide (not_wide_of_isQuote hq)
    have hlen : byteLength (q :: (x ++ [q])) = byteLength (q :: (y ++ [q])) := by
      rw [byteLength_literal, byteLength_literal, hl]
    refine .cons rfl hlen (fun k hk hout => ?_) (ih _)
    have hends := hout rfl
    simp only [Piece.text, byteLength_literal, hsize] at hk hends ⊢
    -- the byte is one of the quotes
    have hbyte : ∀ z : Text, byteLength z = byteLength x → byte? (q :: (z ++ [q])) k = some q := fun z hz => by
      have hq1 : byte? [q] 0 = some q := by rw [byte?, bytes_cons, charBytes_of_not_wide (not_wide_of_isQuote hq)]; rfl
      have hone : byteLength [q] = 1 := by rw [byteLength, byteLength, hsize]
      rcases Nat.eq_zero_or_pos k with rfl | hpos
      · exact (byte?_append_left (a := [q]) (by omega) (z ++ [q])).trans hq1
      · have hk' : k = byteLength (q :: z) + 0 := by rw [byteLength, hsize, hz]; omega
        rw [hk', ← List.cons_append, byte?_append_right, hq1]
    rw [hbyte x rfl, hbyte y hl.symm]

/-- Pieces that agree outside start with the same character, if a single byte or code decides about it. -/
theorem SameFrom.eq_of_text {start : Nat} {p q : Piece} {ps qs : List Piece} {c d : Char} {t u : Text}
    (h : SameFrom start (p :: ps) (q :: qs)) (hp : p.text = c :: t) (hq : q.text = d :: u)
    (hfirst : p.isCode = true ∨ ¬ Wide c) : c = d := by
  refine eq_of_byte? (a := t ++ textOf ps) (b := u ++ textOf qs) fun k hk => ?_
  have hhead := h.head (k := k) (by rw [hp, byteLength]; omega)
    (hfirst.imp_right fun hw => by rw [utf8Size_of_not_wide hw] at hk; omega)
  rwa [textOf_cons, textOf_cons, hp, hq] at hhead

/-- **Pieces that agree outside of literals** are twins, if their literals are well-formed. -/
theorem SameFrom.twins {start : Nat} {ps ps' qs qs' : List Piece} (h : SameFrom start ps qs) (hps : Twins ps ps')
    (hqs : Twins qs qs') : Twins ps qs := by
  have hpos : ∀ (c : Char) (t : Text) (ps : List Piece), 0 < byteLength ((c :: t) ++ textOf ps) := fun c t ps =>
    byteLength_pos (by simp)
  induction hps generalizing start qs qs' with
  | nil =>
    cases hqs with
    | nil => exact .nil
    | code => exact absurd h.length (Nat.ne_of_lt (hpos _ [] _))
    | literal => exact absurd h.length (Nat.ne_of_lt (hpos _ _ _))
  | @code c ps ps' hc hps ih =>
    cases hqs with
    | nil => exact absurd h.length (Nat.ne_of_gt (hpos _ [] _))
    | code hd hqs =>
      obtain rfl := h.eq_of_text rfl rfl (.inl rfl)
      exact .code hc (ih (h.tail rfl rfl) hqs)
    | literal hq =>
      rw [h.eq_of_text rfl rfl (.inl rfl), hq] at hc
      cases hc
  | @literal q x y ps ps' hq hx hy hl hps ih =>
    have hwide := not_wide_of_isQuote hq
    cases hqs with
    | nil => exact absurd h.length (Nat.ne_of_gt (hpos _ _ _))
    | code hd =>
      rw [h.eq_of_text rfl rfl (.inr hwide), hd] at hq
      cases hq
    | @literal q' x' y' _ _ hq' hx' hy' hl' hqs =>
      obtain rfl := h.eq_of_text rfl rfl (.inr hwide)
      have hlen : byteLength (q :: (x ++ [q])) = byteLength (q :: (x' ++ [q])) := by
        have hspan := (List.cons.inj h.spans).1
        rw [Span.mk.injEq] at hspan
        exact Nat.add_left_cancel hspan.2
      refine .literal hq hx hx' ?_ (ih (h.tail rfl hlen) hqs)
      rw [byteLength_literal, byteLength_literal] at hlen
      omega

end Bytes

/-! ## Texts that differ in literals -/

/-- There are no comments, and every quote belongs to a literal. -/
def LiteralsOnly (text : Text) : Prop := ∀ p ∈ pieces text, TimeDifference.isClean p = true

instance (text : Text) : Decidable (LiteralsOnly text) := List.decidableBAll _ _

/-- Two texts without comments and with all quotes closed that are equally long and have their literals at the same
offsets; a byte differs only strictly inside of one of them, between its quotes. -/
structure DifferInLiterals (a b : Text) : Prop where
  left : LiteralsOnly a
  right : LiteralsOnly b
  length : byteLength a = byteLength b
  spans : Bytes.spans a = Bytes.spans b
  byte : ∀ k < byteLength a, (∀ r ∈ Bytes.spans a, ¬ (r.start < k ∧ k + 1 < r.stop)) → Bytes.byte? a k = Bytes.byte? b k

theorem LiteralsOnly.twins {text : Text} (h : LiteralsOnly text) : Twins (pieces text) (pieces text) := by
  have hself : ∀ ps : List Piece, (∀ p ∈ ps, TimeDifference.isClean p = true) →
      (∀ t, .region .literal t ∈ ps → ∃ q x, isQuote q = true ∧ q ∉ x ∧ t = q :: (x ++ [q])) → Twins ps ps := by
    intro ps
    induction ps with
    | nil => exact fun _ _ => .nil
    | cons p ps ih =>
      intro hclean hliteral
      have hps := ih (fun p hp => hclean p (List.mem_cons_of_mem _ hp))
        fun t ht => hliteral t (List.mem_cons_of_mem _ ht)
      have hp := hclean p List.mem_cons_self
      cases p with
      | code c => exact .code (by simpa [TimeDifference.isClean] using hp) hps
      | region kind t =>
        obtain rfl : kind = .literal := by simpa [TimeDifference.isClean] using hp
        obtain ⟨q, x, hq, hx, rfl⟩ := hliteral t List.mem_cons_self
        exact .literal hq hx hx rfl hps
  exact hself _ h fun _ => quoted_of_literal

theorem Twins.literalsOnly {a b : Text} (h : Twins (pieces a) (pieces b)) : LiteralsOnly a := by
  unfold LiteralsOnly
  generalize pieces a = ps at h
  generalize pieces b = qs at h
  induction h with
  | nil => simp
  | code hc _ ih => exact List.forall_mem_cons.mpr ⟨by simp [TimeDifference.isClean, hc], ih⟩
  | literal _ _ _ _ _ ih => exact List.forall_mem_cons.mpr ⟨rfl, ih⟩

/-- **Texts that differ in literals** are those that are read as twins. -/
theorem differInLiterals_iff {a b : Text} : DifferInLiterals a b ↔ Twins (pieces a) (pieces b) := by
  constructor
  · intro h
    have hbyte := h.byte
    simp only [Bytes.spans_eq_spansFrom] at hbyte
    have hsame : Bytes.SameFrom 0 (pieces a) (pieces b) := by
      refine ⟨?_, ?_, ?_⟩
      · rw [textOf_pieces, textOf_pieces, h.length]
      · rw [← Bytes.spans_eq_spansFrom, ← Bytes.spans_eq_spansFrom, h.spans]
      · simpa only [textOf_pieces, Nat.zero_add] using hbyte
    exact hsame.twins h.left.twins h.right.twins
  · intro h
    have hsame := Bytes.SameFrom.of_twins h 0
    refine ⟨h.literalsOnly, h.symm.literalsOnly, ?_, ?_, ?_⟩
    · simpa only [textOf_pieces] using hsame.length
    · rw [Bytes.spans_eq_spansFrom, Bytes.spans_eq_spansFrom, hsame.spans]
    · have hbyte := hsame.byte
      simp only [Bytes.spans_eq_spansFrom]
      simpa only [textOf_pieces, Nat.zero_add] using hbyte

/-- **The text of literals does not steer the rewriting.** -/
theorem convert_differInLiterals {a b : Text} (h : DifferInLiterals a b) :
    SameOutcome DifferInLiterals (TimeDifference.convert a) (TimeDifference.convert b) ∧
      DifferInLiterals (FunctionName.convert a) (FunctionName.convert b) := by
  have htwins := differInLiterals_iff.mp h
  have hcomment := TimeDifference.not_comment_of_clean h.left
  exact ⟨(TimeDifference.convert_twins htwins hcomment).mono fun _ _ => differInLiterals_iff.mpr,
    differInLiterals_iff.mpr (FunctionName.convert_twins htwins)⟩

/-- The contents may look like the separator, a call or a comment, and need not have equally many characters. -/
theorem differInLiterals_call :
    let a := "timestampdiff(second, 'é', if('--', x, y))".toList
    let b := "timestampdiff(second, 'a,', if('f(', x, y))".toList
    DifferInLiterals a b ∧
      TimeDifference.convert a = .ok "((julianday(if('--', x, y)) - julianday('é')) * 86400)".toList ∧
      TimeDifference.convert b = .ok "((julianday(if('f(', x, y)) - julianday('a,')) * 86400)".toList ∧
      SameOutcome DifferInLiterals (TimeDifference.convert a) (TimeDifference.convert b) ∧
      FunctionName.convert a = "timestampdiff(second, 'é', iif('--', x, y))".toList ∧
      DifferInLiterals (FunctionName.convert a) (FunctionName.convert b) := by
  intro a b
  have hspans : Bytes.spans a = [⟨22, 26⟩, ⟨31, 35⟩] := by decide +kernel
  have h : DifferInLiterals a b :=
    ⟨by decide +kernel, by decide +kernel, by decide +kernel, by rw [hspans]; decide +kernel,
      by rw [hspans]; decide +kernel⟩
  obtain ⟨hdifference, hname⟩ := convert_differInLiterals h
  exact ⟨h, eq_ok_of_toOption (by decide +kernel), eq_ok_of_toOption (by decide +kernel), hdifference,
    by decide +kernel, hname⟩

end SqlDialect
