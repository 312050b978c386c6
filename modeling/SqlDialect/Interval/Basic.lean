import SqlDialect.Text

/-!
# Interval expressions

`t - interval 5 second + interval n day` is a *base* `t` and two signed *terms*. The embedded dialect writes it as
one call `datetime(t, '-' || 5 || ' seconds', n || ' days')` with one modifier for each term, in the same order.

* `Term.modifier` writes one term, `Expression.render` the whole expression.
-/

namespace SqlDialect.Interval

/-- The sign of a term. -/
inductive Sign where
  | plus
  | minus
  deriving DecidableEq, Repr

namespace Sign

/-- The character of a sign. -/
def char : Sign → Char
  | plus => '+'
  | minus => '-'

/-- The sign that a character is. -/
def ofChar? : Char → Option Sign
  | '+' => some plus
  | '-' => some minus
  | _ => none

end Sign

/-- The units that have a date modifier. -/
inductive TimeUnit where
  | second
  | minute
  | hour
  | day
  | month
  | year
  deriving DecidableEq, Repr

namespace TimeUnit

/-- The six units. -/
def all : List TimeUnit := [second, minute, hour, day, month, year]

/-- The word for a unit. -/
@[irreducible] def name : TimeUnit → Text
  | second => "second".toList
  | minute => "minute".toList
  | hour => "hour".toList
  | day => "day".toList
  | month => "month".toList
  | year => "year".toList

/-- The unit that a word names, in any letter case. -/
def ofWord? (word : Text) : Option TimeUnit := all.find? fun unit => Text.same word unit.name

/-- The word for the unit in a date modifier. -/
def plural (unit : TimeUnit) : Text := unit.name ++ ['s']

end TimeUnit

/-- A signed offset such as `- interval 5 second`. -/
structure Term where
  sign : Sign
  amount : Text
  unit : TimeUnit
  deriving DecidableEq, Repr

/-- A base timestamp with the terms added to it, and the positions `start`, …, `stop - 1` of the text that the
expression takes the place of. -/
structure Expression where
  base : Text
  terms : List Term
  start : Nat
  stop : Nat
  deriving DecidableEq, Repr

/-! ## The embedded form -/

/-- Is the amount an unsigned numeral? -/
def isNumeral (amount : Text) : Bool := amount.all fun c => c.isDigit || c = '.'

/-- Is the amount a single name or number? -/
def isToken (amount : Text) : Bool := amount.all fun c => isWord c || c = '.'

/-- The expression for the value of a term. A numeral keeps its sign as text. Any other amount may turn out negative,
so its sign is folded into the value; what is not a single token gets parentheses, since `||` binds tighter than
arithmetic. -/
def Term.value (t : Term) : Text :=
  if isNumeral t.amount then ['\'', t.sign.char, '\'', ' ', '|', '|', ' '] ++ t.amount
  else
    match t.sign, isToken t.amount with
    | .plus, true => t.amount
    | .plus, false => ['('] ++ t.amount ++ [')']
    | .minus, true => ['(', '-'] ++ t.amount ++ [')']
    | .minus, false => ['(', '-', '('] ++ t.amount ++ [')', ')']

/-- The modifier that a term becomes. -/
def Term.modifier (t : Term) : Text := t.value ++ [' ', '|', '|', ' ', '\'', ' '] ++ t.unit.plural ++ ['\'']

/-- The function that adds modifiers to a timestamp. -/
@[irreducible] def functionName : Text := "datetime".toList

/-- The call that an expression becomes. -/
def Expression.render (e : Expression) : Text :=
  functionName ++ ['('] ++ e.base ++ e.terms.flatMap (fun t => [',', ' '] ++ t.modifier) ++ [')']

end SqlDialect.Interval
