import SqlDialect.Piece

/-!
# Statements of the embedded database

The embedded database is known by a few forms of statement, read off the tokens of a translated text. `Statement.read`
tells which form a text has; whatever has none of them is `other` and only checked for its tables elsewhere.
-/

namespace SqlDialect

/-! ## Tokens -/

/-- A token of a statement: a word in lower case, a quoted name, a string, or another character. -/
inductive Token where
  | word (w : Text)
  | name (n : Text)
  | string (s : Text)
  | symbol (c : Char)
  deriving DecidableEq, Repr

namespace Token

/-- The text between the quotes of a literal. -/
def unquote (literal : Text) : Text := (literal.drop 1).dropLast

/-- Do the pieces start with a word character? -/
def startsWord : List Piece → Bool
  | .code c :: _ => isWord c
  | _ => false

/-- The tokens with a word character in front, which with `joined` belongs to the word that they start with. -/
def pushWord (joined : Bool) (c : Char) : List Token → List Token
  | .word w :: ts => if joined then .word (c.toLower :: w) :: ts else .word [c.toLower] :: .word w :: ts
  | ts => .word [c.toLower] :: ts

/-- The tokens of the pieces of a statement, without blanks and comments. -/
def ofPieces : List Piece → List Token
  | [] => []
  | .region .comment _ :: ps => ofPieces ps
  | .region .literal t :: ps =>
    (if t.head? = some '\'' then .string (unquote t) else .name (unquote t)) :: ofPieces ps
  | .code c :: ps =>
    if isWord c then pushWord (startsWord ps) c (ofPieces ps)
    else if isBlank c then ofPieces ps
    else .symbol c :: ofPieces ps

/-- The characters of a token, a string in its quotes. -/
def text : Token → Text
  | word w => w
  | name n => n
  | string s => ['\''] ++ s ++ ['\'']
  | symbol c => [c]

end Token

/-- The spellings of tokens, with a qualified name as one spelling. -/
def spellings : List Token → List String
  | a :: .symbol '.' :: b :: ts => String.ofList (a.text ++ ['.'] ++ b.text) :: spellings ts
  | t :: ts => String.ofList t.text :: spellings ts
  | [] => []

/-! ## Forms of statement -/

/-- The forms of statement that the embedded database answers. -/
inductive Statement where
  /-- Inserts the value bound to its marker. -/
  | insert (table : String)
  /-- Inserts the bytes of a hexadecimal literal. -/
  | insertBytes (table : String) (digits : Text)
  /-- Deletes all rows. -/
  | delete (table : String)
  /-- The column of a table. -/
  | column (table : String)
  /-- The standard deviation over the column of a table. -/
  | deviation (table : String)
  /-- The powers of the column of a table with a bound exponent. -/
  | powers (table : String)
  /-- Rows of bound values under the given names. -/
  | bound (names : List String)
  /-- No rows at all. -/
  | nothing
  /-- Makes a table or view. -/
  | create (table : String)
  /-- Any other statement. -/
  | other
  deriving DecidableEq, Repr

namespace Statement

/-- The names of bound columns `? as a, ? as b, …` and what is behind them. -/
def boundNames : List String → Option (List String × List String)
  | "?" :: "as" :: name :: "," :: rest => (boundNames rest).map fun (names, rest) => (name :: names, rest)
  | "?" :: "as" :: name :: rest => some ([name], rest)
  | _ => none

/-- Are these further rows `union all select ?, ?, …` of bound values? -/
def isUnion : List String → Bool
  | [] => true
  | "union" :: "all" :: "select" :: "?" :: rest => isUnion rest
  | "," :: "?" :: rest => isUnion rest
  | _ => false

/-- The spellings without the first one, if it is one of the given words. -/
def dropAny (words : List String) : List String → List String
  | w :: rest => if words.contains w then rest else w :: rest
  | [] => []

/-- The name of the table or view that is made, read behind CREATE. -/
def madeName? (spellings : List String) : Option String :=
  match dropAny ["temp", "temporary"] spellings with
  | kind :: rest =>
    if kind = "table" ∨ kind = "view" then
      match rest with
      | "if" :: "not" :: "exists" :: name :: _ => some name
      | name :: _ => some name
      | [] => none
    else none
  | [] => none

/-- The form with the given spellings of tokens. -/
def ofSpellings : List String → Statement
  | ["insert", "into", table, "values", "(", "?", ")"] => .insert table
  | ["insert", "into", table, "values", "(", "x", literal, ")"] => .insertBytes table (Token.unquote literal.toList)
  | ["delete", "from", table] => .delete table
  | ["select", "x", "from", table] | ["select", "*", "from", table] => .column table
  | ["select", "x", "from", table, "order", "by", "rowid"] => .column table
  | ["select", "stdev", "(", "x", ")", "as", "sd", "from", table] => .deviation table
  | ["select", "pow", "(", "x", ",", "?", ")", "as", "p", "from", table, "order", "by", "rowid"] => .powers table
  | ["select", "1", "as", "x", "where", "0"] => .nothing
  | "create" :: rest =>
    match madeName? rest with
    | some table => .create table
    | none => .other
  | "select" :: rest =>
    match boundNames rest with
    | some (names, rest) => if isUnion rest then .bound names else .other
    | none => .other
  | _ => .other

/-- The spellings without semicolons at their end. -/
def dropSemicolons (spellings : List String) : List String := (spellings.reverse.dropWhile (· == ";")).reverse

/-- The form of a translated text. -/
def read (text : Text) : Statement := ofSpellings (dropSemicolons (spellings (Token.ofPieces (pieces text))))

/-- The table that has to exist for the statement. -/
def table? : Statement → Option String
  | insert t | insertBytes t _ | delete t | column t | deviation t | powers t => some t
  | _ => none

/-- Does the statement look at the tables of the database? -/
def usesTables (s : Statement) : Bool := s.table?.isSome || (s matches .create _)

/-- Does the statement change the database? -/
def changes (s : Statement) : Bool := s matches .insert _ | .insertBytes _ _ | .delete _ | .create _

end Statement

/-- The number of markers for values in a translated text. -/
def markerCount (text : Text) : Nat := (pieces text).count (.code '?')

end SqlDialect
