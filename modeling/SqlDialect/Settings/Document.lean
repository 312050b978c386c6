import SqlDialect.Settings

/-!
# Settings documents

A settings document is a TOML document of the lines `key = string`, blank lines and comments. Each key is a setting and
stands at most once, bare or quoted; the string is in one of the four forms, basic or literal, on one line or on
several. Whatever else TOML allows is no settings document.

* `readLines` reads the lines, `Settings.read?` the whole document.
-/

namespace SqlDialect.Settings

/-- May the character stand in a comment or string? Control characters other than the tab may not. -/
def isPrintable (c : Char) : Bool := c = '\t' || (0x20 ≤ c.toNat && c.toNat ≠ 0x7F)

/-- The blanks within a line. -/
def isLineBlank (c : Char) : Bool := c = ' ' || c = '\t'

/-- The text behind the blanks that it starts with. -/
def skipBlanks (text : Text) : Text := text.dropWhile isLineBlank

/-- The text behind the line end that it starts with. -/
def skipLineEnd? : Text → Option Text
  | '\n' :: rest => some rest
  | '\r' :: '\n' :: rest => some rest
  | _ => none

/-! ## Escapes -/

/-- The character with the number that `count` hexadecimal digits denote, after `n` has been read. -/
def hexChar? : (count n : Nat) → Text → Option (Char × Text)
  | 0, n, rest => if n.isValidChar then some (Char.ofNat n, rest) else none
  | count + 1, n, c :: rest => (hexDigit? c).bind fun d => hexChar? count (16 * n + d) rest
  | _ + 1, _, [] => none

/-- The character that an escape stands for, read behind its backslash. -/
def escape? : Text → Option (Char × Text)
  | 'b' :: rest => some ('\x08', rest)
  | 't' :: rest => some ('\t', rest)
  | 'n' :: rest => some ('\n', rest)
  | 'f' :: rest => some ('\x0c', rest)
  | 'r' :: rest => some ('\r', rest)
  | '"' :: rest => some ('"', rest)
  | '\\' :: rest => some ('\\', rest)
  | 'u' :: rest => hexChar? 4 0 rest
  | 'U' :: rest => hexChar? 8 0 rest
  | _ => none

theorem hexChar?_length {count n : Nat} {text rest : Text} {c : Char} (h : hexChar? count n text = some (c, rest)) :
    rest.length ≤ text.length := by
  fun_induction hexChar? count n text with
  | case1 => cases h; simp
  | case2 => cases h
  | case3 n d text count ih =>
    obtain ⟨v, _, hr⟩ := Option.bind_eq_some_iff.mp h
    have := ih v hr
    simp only [List.length_cons]
    omega
  | case4 => cases h

theorem escape?_length {text rest : Text} {c : Char} (h : escape? text = some (c, rest)) :
    rest.length < text.length := by
  unfold escape? at h
  split at h
  all_goals first
    | exact Nat.lt_succ_of_le (hexChar?_length h)
    | (cases h; simp)
    | cases h

/-! ## Strings -/

/-- The rest of a basic string on one line, with what is behind it. -/
def basic? (text : Text) : Option (Text × Text) :=
  match text with
  | [] => none
  | '"' :: rest => some ([], rest)
  | '\\' :: rest =>
    match _h : escape? rest with
    | none => none
    | some (c, rest) => (basic? rest).map fun (s, rest) => (c :: s, rest)
  | c :: rest => if isPrintable c then (basic? rest).map fun (s, rest) => (c :: s, rest) else none
termination_by text.length
decreasing_by
  · have := escape?_length _h
    simp only [List.length_cons]
    omega
  · simp

/-- The rest of a literal string on one line, with what is behind it. -/
def literal? : Text → Option (Text × Text)
  | [] => none
  | c :: rest =>
    if c = '\'' then some ([], rest)
    else if isPrintable c then (literal? rest).map fun (s, rest) => (c :: s, rest)
    else none

/-- The text behind the blanks and line ends that it starts with. -/
def skipLines : Text → Text
  | '\r' :: '\n' :: rest => skipLines rest
  | c :: rest => if isLineBlank c || c = '\n' then skipLines rest else c :: rest
  | [] => []

theorem skipLines_length (text : Text) : (skipLines text).length ≤ text.length := by
  fun_induction skipLines text with
  | case1 rest ih => simp only [List.length_cons]; omega
  | case2 c rest _ _ ih => simp only [List.length_cons]; omega
  | case3 => simp
  | case4 => simp

/-- How many quotes of a run of `count` quotes in a string of several lines belong to it, and whether the string ends:
the last three quotes end it, and up to two before them belong to it. -/
def quotesWithin (count : Nat) : Nat × Bool := if count < 3 then (count, false) else (min count 5 - 3, true)

/-- The rest of a string of several lines in the given quotes, with what is behind it. Line ends are read as line
feeds; in a basic string a backslash before the end of a line joins the lines. -/
def lines? (quote : Char) (text : Text) : Option (Text × Text) :=
  match text with
  | [] => none
  | c :: rest =>
    if c = quote then
      let run := c :: rest.takeWhile (· = quote)
      match quotesWithin run.length with
      | (n, true) => some (run.take n, (c :: rest).drop (n + 3))
      | (n, false) => (lines? quote (rest.drop (n - 1))).map fun (s, rest) => (run.take n ++ s, rest)
    else if c = '\\' ∧ quote = '"' then
      match _h : escape? rest with
      | some (c, rest) => (lines? quote rest).map fun (s, rest) => (c :: s, rest)
      | none =>
        match skipLineEnd? (skipBlanks rest) with
        | some _ => lines? quote (skipLines rest)
        | none => none
    else
      match c, rest with
      | '\n', rest => (lines? quote rest).map fun (s, rest) => ('\n' :: s, rest)
      | '\r', '\n' :: rest => (lines? quote rest).map fun (s, rest) => ('\n' :: s, rest)
      | c, rest => if isPrintable c then (lines? quote rest).map fun (s, rest) => (c :: s, rest) else none
termination_by text.length
decreasing_by
  all_goals simp only [List.length_cons, List.length_drop]
  · omega
  · have := escape?_length _h; omega
  · have := skipLines_length rest; omega
  all_goals omega

/-- A line end directly behind the opening quotes does not count. -/
def skipFirstLineEnd (text : Text) : Text := (skipLineEnd? text).getD text

/-- The string that a text starts with, with what is behind it. -/
def string? : Text → Option (Text × Text)
  | '"' :: '"' :: '"' :: rest => lines? '"' (skipFirstLineEnd rest)
  | '\'' :: '\'' :: '\'' :: rest => lines? '\'' (skipFirstLineEnd rest)
  | '"' :: rest => basic? rest
  | '\'' :: rest => literal? rest
  | _ => none

/-! ## Lines -/

/-- May the character stand in a bare key? -/
def isBare (c : Char) : Bool := c.isAlphanum || c = '_' || c = '-'

/-- The key that a text starts with, with what is behind it. -/
def key? : Text → Option (Text × Text)
  | '"' :: rest => basic? rest
  | '\'' :: rest => literal? rest
  | text =>
    let bare := text.takeWhile isBare
    if bare.isEmpty then none else some (bare, text.dropWhile isBare)

/-- The setting that a line sets, with its value and what is behind it. -/
def assignment? (text : Text) : Option ((Setting × String) × Text) := do
  let (key, text) ← key? text
  let setting ← Setting.ofKey? (String.ofList key)
  match skipBlanks text with
  | '=' :: text =>
    let (value, text) ← string? (skipBlanks text)
    return ((setting, String.ofList value), text)
  | _ => none

/-- What is behind the end of a line that may still hold blanks and a comment. At the end of the text nothing is. -/
def endLine? (text : Text) : Option Text :=
  let rest :=
    match skipBlanks text with
    | '#' :: comment => comment.dropWhile isPrintable
    | rest => rest
  if rest.isEmpty then some [] else skipLineEnd? rest

/-- The settings of a document, line by line, for at most `fuel` lines. -/
def readLines : (fuel : Nat) → Text → Option (List (Setting × String))
  | _, [] => some []
  | 0, _ :: _ => none
  | fuel + 1, text =>
    match endLine? text with
    | some rest => readLines fuel rest
    | none => do
      let (setting, rest) ← assignment? (skipBlanks text)
      let rest ← endLine? rest
      return setting :: (← readLines fuel rest)

/-- The document without a byte order mark. -/
def skipMark : Text → Text
  | '\uFEFF' :: rest => rest
  | text => text

/-- The settings that a document sets, in their order. There are no more lines than characters. -/
def assignments? (document : String) : Option (List (Setting × String)) := do
  let text := skipMark document.toList
  let values ← readLines text.length text
  if (values.map Prod.fst).Nodup then return values else none

/-- The settings of a document; what it does not set has its default. -/
def read? (document : String) : Option Settings := (assignments? document).map ofList

end SqlDialect.Settings
