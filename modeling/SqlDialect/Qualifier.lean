import SqlDialect.Keyword

/-!
# Schema qualifiers

The embedded database has one name space, so the qualifier `lab.` or `` `lab`. `` of the laboratory's schema is
dropped wherever it starts a name: no word character and no point stands in front. String literals are passed over;
comments and quoted names are not.

* `strip_empty`: with an empty schema name a text stays as it is.
-/

namespace SqlDialect.Qualifier

/-- The two spellings of a qualifier, the quoted one first. -/
def spellings (schema : Text) : List Text := [['\x60'] ++ schema ++ ['\x60', '.'], schema ++ ['.']]

/-- May a name start behind the character `before`? -/
def startsName (before : Option Char) : Bool := !before.any fun c => isWord c || c = '.'

/-- How many characters after the quote `q` belong to the string literal that it opens, if it opens one. -/
def stringTail? (q : Char) (rest : Text) : Option Nat :=
  if q = '\x60' then none else literalTail? q rest

/-- A text without its qualifiers, and how many there were. -/
structure Stripped where
  text : Text
  removed : Nat
  deriving DecidableEq, Repr

/-- The text without the qualifiers spelled as one of `qs`, where `before` is the character in front of it. -/
def stripFrom (qs : List Text) (before : Option Char) (text : Text) : Stripped :=
  match text with
  | [] => ⟨[], 0⟩
  | c :: rest =>
    match if startsName before then qs.find? (startsKeyword · before (c :: rest)) else none with
    | some q =>
      let n := q.length - 1
      let after := stripFrom qs (c :: rest.take n).getLast? (rest.drop n)
      ⟨after.text, after.removed + 1⟩
    | none =>
      match stringTail? c rest with
      | some n =>
        let after := stripFrom qs (c :: rest.take n).getLast? (rest.drop n)
        ⟨c :: rest.take n ++ after.text, after.removed⟩
      | none =>
        let after := stripFrom qs (some c) rest
        ⟨c :: after.text, after.removed⟩
termination_by text.length
decreasing_by all_goals simp only [List.length_drop, List.length_cons]; omega

/-- The text without the qualifiers of the schema. -/
def strip (schema text : Text) : Stripped :=
  if schema.isEmpty then ⟨text, 0⟩ else stripFrom (spellings schema) none text

/-- With an empty schema name a text stays as it is. -/
theorem strip_empty (text : Text) : strip [] text = ⟨text, 0⟩ := rfl

end SqlDialect.Qualifier
