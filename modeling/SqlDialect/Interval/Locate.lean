import SqlDialect.Interval.Base

/-!
# Locating an interval expression

`locate` takes the position of the first INTERVAL keyword of an expression, finds the sign before it, the base before
the sign and the terms from the keyword on. An expression that fills a bare grouping parenthesis takes the parenthesis
with it.

* `locate_ok`: what is read where an expression is found.
* `locate_lt`: the expression stops behind the keyword.
-/

namespace SqlDialect.Interval

/-- The sign before the keyword at position `kw`, with its position. Only blanks may stand between. -/
def readSign (text : Text) (kw : Nat) : Except StageError (Sign × Nat) :=
  match (text.take kw).reverse.dropWhile isBlank with
  | [] => .error ⟨.signMissing, Text.slice text 0 (kw + keyword.length)⟩
  | c :: before =>
    match Sign.ofChar? c with
    | none => .error ⟨.signMissing, Text.slice text before.length (kw + keyword.length)⟩
    | some sign => .ok (sign, before.length)

/-- The word that a text ends with, up to spaces behind it. -/
def lastWord (text : Text) : Text := ((Text.trimEnd text).reverse.takeWhile isWord).reverse

/-- The words that end a base and still stand in front of a list. -/
@[irreducible] def listWords : List Text := ["in", "values"].map String.toList

/-- Does a parenthesis behind `before` hold a list of arguments or values? It does if a name stands in front, or one
of the words IN and VALUES, but not if another word that ends a base does. -/
def opensList (before : Text) : Bool :=
  let word := lastWord before
  !word.isEmpty && (!stopWords.any (Text.same word) || listWords.any (Text.same word))

/-- The last position of the parenthesis at position `opener` if the expression from `start` to `stop` fills it and it
only groups. -/
def groupEnd? (text : Text) (opener start stop : Nat) : Option Nat :=
  let close := stop + ((text.drop stop).takeWhile isBlank).length
  if text[opener]? = some '(' ∧ opener + 1 + triviaLength (text.drop (opener + 1)) = start ∧
      findClosing text opener = some close ∧ !opensList (text.take opener) then
    some close
  else none

/-- The interval expression whose first keyword stands at position `kw`. -/
def locate (text : Text) (kw : Nat) : Except StageError Expression :=
  match readSign text kw with
  | .error e => .error e
  | .ok (sign, signAt) =>
    match readBase text signAt (kw + keyword.length) with
    | .error e => .error e
    | .ok base =>
      match readTerms sign (text.drop kw) with
      | .error e => .error e
      | .ok (terms, n) =>
        let stop := kw + n
        match base.group.bind (fun opener => (groupEnd? text opener base.start stop).map (opener, ·)) with
        | some (opener, close) => .ok ⟨base.text, terms, opener, close + 1⟩
        | none => .ok ⟨base.text, terms, base.start, stop⟩

/-- A group ends behind the expression that fills it. -/
theorem groupEnd?_ge {text : Text} {opener start stop close : Nat}
    (h : groupEnd? text opener start stop = some close) : stop ≤ close := by
  unfold groupEnd? at h
  simp only at h
  split at h
  · cases h; omega
  · cases h

/-- What is read where an expression is found: the sign, the base and the terms. It stands in the place of the
parenthesis that it fills, if there is one. -/
theorem locate_ok {text : Text} {kw : Nat} {e : Expression} (h : locate text kw = .ok e) :
    ∃ sign signAt base n, readSign text kw = .ok (sign, signAt) ∧
      readBase text signAt (kw + keyword.length) = .ok base ∧ readTerms sign (text.drop kw) = .ok (e.terms, n) ∧
      e.base = base.text ∧
      ((∃ opener close, base.group = some opener ∧ groupEnd? text opener base.start (kw + n) = some close ∧
          e.start = opener ∧ e.stop = close + 1) ∨
        (∀ opener, base.group = some opener → groupEnd? text opener base.start (kw + n) = none) ∧
          e.start = base.start ∧ e.stop = kw + n) := by
  unfold locate at h
  split at h
  · cases h
  · next sign signAt hsign =>
    split at h
    · cases h
    · next base hbase =>
      split at h
      · cases h
      · next terms n hterms =>
        simp only at h
        split at h
        · next opener close hgroup =>
          cases h
          obtain ⟨o, ho, hend⟩ := Option.bind_eq_some_iff.mp hgroup
          obtain ⟨c, hc, he⟩ := Option.map_eq_some_iff.mp hend
          cases he
          exact ⟨sign, signAt, base, n, hsign, hbase, hterms, rfl, Or.inl ⟨_, _, ho, hc, rfl, rfl⟩⟩
        · next hgroup =>
          cases h
          refine ⟨sign, signAt, base, n, hsign, hbase, hterms, rfl, Or.inr ⟨fun opener ho => ?_, rfl, rfl⟩⟩
          rwa [ho, Option.bind_some, Option.map_eq_none_iff] at hgroup

/-- The expression stops behind the keyword. -/
theorem locate_lt {text : Text} {kw : Nat} {e : Expression} (h : locate text kw = .ok e) :
    kw + keyword.length < e.stop := by
  obtain ⟨sign, signAt, base, n, -, -, hterms, -, hplace⟩ := locate_ok h
  have hlt := readTerms_lt hterms
  rcases hplace with ⟨opener, close, -, hend, -, hstop⟩ | ⟨-, -, hstop⟩
  · have := groupEnd?_ge hend
    omega
  · omega

end SqlDialect.Interval
