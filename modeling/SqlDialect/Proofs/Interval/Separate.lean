import SqlDialect.Proofs.Bytes.Interval
import SqlDialect.Proofs.Interval.Between

/-!
# Items of a list

The conversion of well-formed texts with commas between them converts each of them alone. A step in one of them is the
step that its own conversion makes, with the other texts around it.

* `convertFrom_skip`: what holds no keyword is passed over.
* `convertFrom_between`: behind the steps of an item the conversion goes on with what stands behind it.
* `convert_separate`: two texts with a comma between them are converted separately.
-/

namespace SqlDialect.Interval

/-! ## The next keyword -/

/-- The search for a keyword depends on the character in front only where that is a word character. -/
theorem findKeyword_before {w : Text} {b b' : Option Char} (h : b.any isWord = b'.any isWord) (t : Text) :
    findKeyword w b t = findKeyword w b' t := by
  cases t with
  | nil => simp only [findKeyword]
  | cons c rest =>
    have hs : startsKeyword w b (c :: rest) = startsKeyword w b' (c :: rest) := by simp only [startsKeyword, h]
    rw [findKeyword, findKeyword, hs]

/-- A keyword stands in the rest of an item or behind it. -/
theorem findKeyword_append {t r : Text} (h : Tail t r) (hr : EndsItem r) (b : Option Char) :
    findKeyword keyword b (t ++ r) =
      (findKeyword keyword b t).or ((findKeyword keyword (t.getLast?.or b) r).map (· + t.length)) := by
  have hbreak : WordBreak (textOf (pieces t)) (textOf (pieces r)) := by
    rw [textOf_pieces r]
    exact wordBreak_of_head (hr.head rfl) _
  rw [findKeyword_eq_firstIn, h.pieces_append, firstIn_keyword_append isWord_keyword hbreak, textOf_pieces,
    ← findKeyword_eq_firstIn, ← findKeyword_eq_firstIn]

/-! ## Steps -/

section Convert

variable {done rest : Text}

theorem convertFrom_of_none (h : findKeyword keyword done.getLast? rest = none) :
    convertFrom done rest = .ok (done ++ rest) := by
  rw [convertFrom]
  split
  · rfl
  · next hk =>
    rw [h] at hk
    cases hk

theorem convertFrom_of_some {n : Nat} (h : findKeyword keyword done.getLast? rest = some n) :
    convertFrom done rest =
      match locate (done ++ rest) (done.length + n) with
      | .error e => .error e
      | .ok e => convertFrom ((done ++ rest).take e.start ++ e.render) ((done ++ rest).drop e.stop) := by
  rw [convertFrom]
  split
  · next hk =>
    rw [h] at hk
    cases hk
  · next m hk =>
    rw [h, Option.some.injEq] at hk
    subst hk
    split <;> next he => rw [he]

/-- Text in which no keyword starts is passed over. -/
theorem convertFrom_skip {mid : Text} (h : findKeyword keyword done.getLast? (mid ++ rest) =
    (findKeyword keyword (done ++ mid).getLast? rest).map (· + mid.length)) :
    convertFrom done (mid ++ rest) = convertFrom (done ++ mid) rest := by
  cases hk : findKeyword keyword (done ++ mid).getLast? rest with
  | none =>
    rw [hk] at h
    rw [convertFrom_of_none h, convertFrom_of_none hk, List.append_assoc]
  | some n =>
    rw [hk] at h
    have hat : done.length + (n + mid.length) = (done ++ mid).length + n := by
      rw [List.length_append]
      omega
    rw [convertFrom_of_some h, convertFrom_of_some hk, ← List.append_assoc, hat]

/-- **An item of a list.** Behind its last step the conversion goes on with what stands behind the item. -/
theorem convertFrom_between {L R : Text} {ps : List Piece} (hat : At done rest ps) (h : Between L (done ++ rest) R) :
    (convertFrom (L ++ done) (rest ++ R)).toOption =
      (convertFrom done rest).toOption.bind fun out => (convertFrom (L ++ out) R).toOption := by
  induction hlen : rest.length using Nat.strongRecOn generalizing done rest ps with
  | ind m ih =>
    have hfind := findKeyword_append (h.tail.drop (hat.reads : pieces (done ++ rest) = _)) h.ends (L ++ done).getLast?
    rw [findKeyword_before (h.before done) rest] at hfind
    cases hk : findKeyword keyword done.getLast? rest with
    | none =>
      rw [hk, Option.none_or, ← List.getLast?_append] at hfind
      rw [convertFrom_skip hfind, convertFrom_of_none hk, List.append_assoc]
      rfl
    | some n =>
      rw [hk, Option.some_or] at hfind
      obtain ⟨ms, b, hp, hl, hb, -⟩ := hat.skip hk
      have hloc := locate_between h hp hl hb
      have htext : (L ++ done) ++ (rest ++ R) = L ++ ((done ++ rest) ++ R) := by simp only [List.append_assoc]
      rw [convertFrom_of_some hk, convertFrom_of_some hfind, htext, List.length_append, Nat.add_assoc]
      cases he : locate (done ++ rest) (done.length + n) with
      | error e =>
        obtain ⟨e', he'⟩ := eq_error_of_toOption (hloc.trans (by rw [he]; rfl))
        rw [he']
        rfl
      | ok e =>
        obtain ⟨qs, hqs, hnext⟩ := hat.balanced h.item hk he
        obtain ⟨hstart, hstop⟩ := Bytes.locate_le (starts_of_startsKeyword hb) he
        have hlt := locate_lt he
        have hlength : e.stop ≤ done.length + rest.length := List.length_append ▸ hstop
        rw [eq_ok_of_toOption (hloc.trans (by rw [he]; rfl))]
        simp only [take_between (Nat.le_trans hstart hstop), drop_between hstop]
        rw [← ih _ (by simp only [List.length_drop, List.length_append]; omega) hqs ⟨hnext, h.left, h.right⟩ rfl,
          List.append_assoc]
        rfl

end Convert

/-! ## Two texts -/

/-- No keyword starts at a comma. -/
theorem findKeyword_comma (b : Option Char) (t : Text) :
    findKeyword keyword b (',' :: t) = (findKeyword keyword (some ',') t).map (· + 1) := by
  have hregion : regionTail? ',' t = none :=
    regionTail?_of_ne (by decide) (by decide) (by decide) (by decide) t
  have hstart : startsKeyword keyword b (',' :: t) = false := startsKeyword_end (Or.inr rfl) b
  rw [findKeyword, hregion, hstart]
  rfl

/-- The two texts are converted one after the other. -/
theorem toOption_convert_comma {a b : Text} (ha : WellFormed a) (hb : WellFormed b) :
    (convert (a ++ ',' :: b)).toOption =
      (convert a).toOption.bind fun x => (convert b).toOption.map fun y => x ++ ',' :: y := by
  have hleft := convertFrom_between (at_start a) ⟨ha, Or.inl rfl, Or.inr ⟨b, rfl, hb⟩⟩
  show (convertFrom ([] ++ []) (a ++ ',' :: b)).toOption = _
  rw [hleft]
  show (convert a).toOption.bind _ = _
  cases hx : convert a with
  | error e => rfl
  | ok x =>
    have hright := convertFrom_between (at_start b) ⟨hb, Or.inr ⟨x, rfl, wellFormed_convert ha hx⟩, Or.inl rfl⟩
    have hcomma : convertFrom x ([','] ++ b) = convertFrom (x ++ [',']) b := by
      apply convertFrom_skip
      rw [List.getLast?_concat]
      exact findKeyword_comma _ b
    rw [List.append_nil, List.append_nil] at hright
    show (convertFrom x ([','] ++ b)).toOption = _
    rw [hcomma, hright]
    show (convert b).toOption.bind _ = _
    cases convert b with
    | error e => rfl
    | ok y =>
      show (convertFrom (x ++ [','] ++ y) []).toOption = _
      rw [convertFrom_of_none (by rw [findKeyword])]
      simp [Except.toOption]

/-- **Separate texts.** Two well-formed texts with a comma between them are converted if and only if each of them is,
and then each is converted as it is alone. -/
theorem convert_separate {a b : Text} (ha : WellFormed a) (hb : WellFormed b) :
    ((∃ out, convert (a ++ ',' :: b) = .ok out) ↔ (∃ x, convert a = .ok x) ∧ ∃ y, convert b = .ok y) ∧
      ∀ x y, convert a = .ok x → convert b = .ok y → convert (a ++ ',' :: b) = .ok (x ++ ',' :: y) := by
  have hboth := toOption_convert_comma ha hb
  constructor
  · constructor
    · rintro ⟨out, hout⟩
      rw [hout] at hboth
      obtain ⟨x, hx, hy⟩ := Option.bind_eq_some_iff.mp hboth.symm
      obtain ⟨y, hy, -⟩ := Option.map_eq_some_iff.mp hy
      exact ⟨⟨x, eq_ok_of_toOption hx⟩, y, eq_ok_of_toOption hy⟩
    · rintro ⟨⟨x, hx⟩, y, hy⟩
      rw [hx, hy] at hboth
      exact ⟨_, eq_ok_of_toOption hboth⟩
  · intro x y hx hy
    rw [hx, hy] at hboth
    exact eq_ok_of_toOption hboth

/-- A group with a list in its base stands in front of the comma, and two expressions behind it. -/
theorem convert_separate_lists :
    let a := "(f(s, t) + interval (n, 1) day)".toList
    let b := "u - interval 2 hour + interval -m minute, if(v + interval ',' second)".toList
    let x := "datetime(f(s, t), ((n, 1)) || ' days')".toList
    let y := "datetime(u, '-' || 2 || ' hours', (-m) || ' minutes'), if(datetime(v, (',') || ' seconds'))".toList
    WellFormed a ∧ WellFormed b ∧ convert a = .ok x ∧ convert b = .ok y ∧
      convert (a ++ ',' :: b) = .ok (x ++ ',' :: y) := by
  intro a b x y
  have ha : WellFormed a := by decide +kernel
  have hb : WellFormed b := by decide +kernel
  have hx : convert a = .ok x := eq_ok_of_toOption (by decide +kernel)
  have hy : convert b = .ok y := eq_ok_of_toOption (by decide +kernel)
  exact ⟨ha, hb, hx, hy, (convert_separate ha hb).2 x y hx hy⟩

end SqlDialect.Interval
