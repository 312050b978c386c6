import SqlDialect.Text

/-!
# View headers

A view definition exported from the server starts with

    CREATE [OR REPLACE] {ALGORITHM = word | DEFINER = account | SQL SECURITY DEFINER | SQL SECURITY INVOKER} VIEW

and only `CREATE VIEW` is kept of it. Keywords are met in any letter case, and the tokens are separated by spaces,
tabs and line ends. An account runs up to the next space of any kind.

* `skip?_eq_some`: what is skipped as a keyword is that keyword in some letter case.
-/

namespace SqlDialect.View

/-- Who a view is run as. -/
inductive Security where
  | definer
  | invoker
  deriving DecidableEq, Repr

/-- The name of a way to run a view. -/
def Security.name : Security → String
  | definer => "DEFINER"
  | invoker => "INVOKER"

/-- An option between CREATE and VIEW. -/
inductive HeaderOption where
  | algorithm (name : Text)
  | definer (account : Text)
  | security (runAs : Security)
  deriving DecidableEq, Repr

/-- A view header; `body` starts at the view's name. -/
structure Header where
  orReplace : Bool
  options : List HeaderOption
  body : Text
  deriving DecidableEq, Repr

/-- What a header should have had at some point. -/
inductive Wanted where
  | keyword
  | space
  deriving DecidableEq, Repr

/-- A failure to read a header: what was wanted, and the text left there. -/
structure HeaderError where
  wanted : Wanted
  rest : Text
  deriving DecidableEq, Repr

/-! ## Tokens -/

/-- The spaces that may stand between the tokens of a header. -/
def isGap (c : Char) : Bool := c = ' ' || c = '\t' || c = '\r' || c = '\n'

/-- The text behind `word`, if it starts with it in some letter case. -/
def skip? (word text : Text) : Option Text :=
  if Text.starts word text then some (text.drop word.length) else none

/-- The text behind the gap that it starts with, if it starts with one. -/
def skipGap? (text : Text) : Option Text :=
  if text.head?.any isGap then some (text.dropWhile isGap) else none

/-- The text behind `word` and a gap. -/
def skipWord? (word text : Text) : Option Text := (skip? word text).bind skipGap?

/-- The text behind an equals sign, with or without gaps around it. -/
def skipEquals? (text : Text) : Option Text :=
  match text.dropWhile isGap with
  | '=' :: rest => some (rest.dropWhile isGap)
  | _ => none

/-- The longest beginning of a text with the given property, unless it is empty, and the text behind it. -/
def takeSome? (p : Char → Bool) (text : Text) : Option (Text × Text) :=
  if text.head?.any p then some (text.takeWhile p, text.dropWhile p) else none

/-- What is skipped as a keyword is that keyword in some letter case. -/
theorem skip?_eq_some {word text rest : Text} (h : skip? word text = some rest) :
    Text.starts word text = true ∧ rest = text.drop word.length := by
  unfold skip? at h
  split at h
  · next hs => cases h; exact ⟨hs, rfl⟩
  · cases h

/-! ## Options -/

/-- The words of a header. -/
@[irreducible] def createWord : Text := "create".toList

@[irreducible] def orWord : Text := "or".toList

@[irreducible] def replaceWord : Text := "replace".toList

@[irreducible] def algorithmWord : Text := "algorithm".toList

@[irreducible] def definerWord : Text := "definer".toList

@[irreducible] def invokerWord : Text := "invoker".toList

@[irreducible] def sqlWord : Text := "sql".toList

@[irreducible] def securityWord : Text := "security".toList

@[irreducible] def viewWord : Text := "view".toList

/-- The option ALGORITHM that a text starts with. -/
def readAlgorithm? (text : Text) : Option (HeaderOption × Text) := do
  let text ← skip? algorithmWord text
  let text ← skipEquals? text
  let (name, text) ← takeSome? (fun c => c.isAlphanum || c = '_') text
  return (.algorithm name, text)

/-- The option DEFINER that a text starts with. -/
def readDefiner? (text : Text) : Option (HeaderOption × Text) := do
  let text ← skip? definerWord text
  let text ← skipEquals? text
  let (account, text) ← takeSome? (fun c => !isSpace c) text
  return (.definer account, text)

/-- The option SQL SECURITY that a text starts with. -/
def readSecurity? (text : Text) : Option (HeaderOption × Text) := do
  let text ← skipWord? sqlWord text
  let text ← skipWord? securityWord text
  match skip? definerWord text with
  | some rest => return (.security .definer, rest)
  | none =>
    let rest ← skip? invokerWord text
    return (.security .invoker, rest)

/-- The option that a text starts with, and the text behind it and the gap that follows. -/
def readOption? (text : Text) : Option (HeaderOption × Text) := do
  let (option, text) ← readAlgorithm? text <|> readDefiner? text <|> readSecurity? text
  let text ← skipGap? text
  return (option, text)

/-- The options that a text starts with, and the text behind them. Each option takes up characters; a text that an
option would not shorten ends the list. -/
def readOptions (text : Text) : List HeaderOption × Text :=
  match readOption? text with
  | none => ([], text)
  | some (option, rest) =>
    if rest.length < text.length then
      let (options, rest) := readOptions rest
      (option :: options, rest)
    else ([], text)
termination_by text.length

/-! ## The header -/

/-- The text behind `word` and a gap, or what is missing. -/
def expectWord (word text : Text) : Except HeaderError Text :=
  match skip? word text with
  | none => .error ⟨.keyword, text⟩
  | some rest =>
    match skipGap? rest with
    | none => .error ⟨.space, rest⟩
    | some rest => .ok rest

/-- The text behind OR REPLACE, if it starts with it. -/
def skipOrReplace? (text : Text) : Option Text := (skipWord? orWord text).bind (skipWord? replaceWord)

/-- The header that a text starts with. -/
def Header.read (text : Text) : Except HeaderError Header := do
  let text ← expectWord createWord text
  let replaced := skipOrReplace? text
  let (options, text) := readOptions (replaced.getD text)
  let body ← expectWord viewWord text
  return ⟨replaced.isSome, options, body⟩

/-- The plain beginning of a view definition. -/
@[irreducible] def plainHeader : Text := "CREATE VIEW ".toList

/-- The definition with a plain header. A text without a view header stays as it is. -/
def normalizeHeader (definition : Text) : Text :=
  match Header.read (Text.trimStart definition) with
  | .ok header => plainHeader ++ header.body
  | .error _ => definition

end SqlDialect.View
