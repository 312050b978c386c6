import SqlDialect.Text

/-!
# Reading numerals

An integer is an optional sign and digits. A decimal has an optional sign, digits with or without a point among or
around them, and an optional power of ten; `inf`, `infinity` and `nan` in any letter case count too. A decimal is read
as the nearest binary number, of two equally near ones the even one.

* `nearestBits` rounds a quotient of naturals; its result counts the positive binary numbers upwards from zero.
* `integer?_ofDigits`: digits alone are read as the number that they denote.
-/

namespace SqlDialect.Decimal

/-! ## Digits and signs -/

/-- The value of a digit. -/
def digitValue (c : Char) : Nat := c.toNat - '0'.toNat

/-- The number that digits denote, after `n` has been read. -/
def valueFrom (n : Nat) (digits : Text) : Nat := digits.foldl (fun n c => 10 * n + digitValue c) n

/-- The number that digits denote. -/
def value (digits : Text) : Nat := valueFrom 0 digits

/-- Is the sign negative, and what stands behind it? -/
def splitSign : Text → Bool × Text
  | '-' :: rest => (true, rest)
  | '+' :: rest => (false, rest)
  | rest => (false, rest)

/-- Is the text a digit or more, and nothing else? -/
def isDigits (text : Text) : Bool := !text.isEmpty && text.all Char.isDigit

/-- The integer that a text denotes. -/
def integer? (text : Text) : Option Int :=
  match splitSign text with
  | (negative, digits) =>
    if isDigits digits then some (if negative then -(value digits : Int) else value digits) else none

/-- Digits alone are read as the number that they denote. -/
theorem integer?_ofDigits {digits : Text} (h : isDigits digits = true) :
    integer? digits = some (value digits : Int) := by
  have hs : splitSign digits = (false, digits) := by
    cases digits with
    | nil => rfl
    | cons c rest =>
      simp only [isDigits, List.all_cons, Bool.and_eq_true] at h
      unfold splitSign
      split
      · next he => cases he; simp at h
      · next he => cases he; simp at h
      · rfl
  unfold integer?
  rw [hs]
  simp [h]

/-! ## Decimals -/

/-- The number `digits · 10 ^ exponent` or its negative. -/
structure Numeral where
  negative : Bool
  digits : Nat
  exponent : Int
  deriving DecidableEq, Repr

/-- The power of ten that a text behind the digits of a decimal denotes. -/
def exponent? : Text → Option Int
  | [] => some 0
  | c :: rest => if c = 'e' || c = 'E' then integer? rest else none

/-- The unsigned decimal that a text denotes, with the given sign. -/
def numeral? (negative : Bool) (text : Text) : Option Numeral :=
  let whole := text.takeWhile Char.isDigit
  let rest := text.dropWhile Char.isDigit
  let (fraction, rest) :=
    match rest with
    | '.' :: rest => (rest.takeWhile Char.isDigit, rest.dropWhile Char.isDigit)
    | _ => ([], rest)
  if whole.isEmpty && fraction.isEmpty then none
  else
    (exponent? rest).map fun e => ⟨negative, value (whole ++ fraction), e - fraction.length⟩

/-! ## Rounding to binary -/

/-- The place, counted from zero, of the binary number nearest to `num / den` among the non-negative ones in
ascending order, taking the exponent range as unbounded above. The quotient is cut to 53 binary digits, or fewer near
zero, and the cut part decides; a half goes to the even neighbour. -/
def nearestBits (num den : Nat) : Nat :=
  if num = 0 then 0
  else
    let guess : Int := (num.log2 : Int) - den.log2 - 52
    let scaled (e : Int) : Nat × Nat := (num * Nat.pow 2 (-e).toNat, den * Nat.pow 2 e.toNat)
    let e := if (scaled guess).1 / (scaled guess).2 < Nat.pow 2 52 then guess - 1 else guess
    let e := max e (-1074)
    let (n, d) := scaled e
    let q := n / d
    let r := n % d
    let q := if d < 2 * r || (2 * r = d && q % 2 = 1) then q + 1 else q
    (e + 1074).toNat * Nat.pow 2 52 + q

/-- The place of infinity in ascending order. -/
def infinityBits : Nat := 0x7FF * Nat.pow 2 52

/-- The binary number at a place, or infinity behind the last. -/
def ofPlace (negative : Bool) (place : Nat) : Float :=
  let magnitude := min place infinityBits
  Float.ofBits (UInt64.ofNat (if negative then Nat.pow 2 63 + magnitude else magnitude))

/-- The binary number nearest to a numeral. Powers of ten beyond every binary number are not worked out. -/
def Numeral.toFloat (d : Numeral) : Float :=
  if d.digits = 0 then ofPlace d.negative 0
  else if 400 < d.exponent then ofPlace d.negative infinityBits
  else if (d.digits.log2 : Int) + 1200 < -3 * d.exponent then ofPlace d.negative 0
  else
    ofPlace d.negative (nearestBits (d.digits * Nat.pow 10 d.exponent.toNat) (Nat.pow 10 (-d.exponent).toNat))

/-- The binary number that a text denotes. -/
def float? (text : Text) : Option Float :=
  match splitSign text with
  | (negative, rest) =>
    match String.ofList (Text.lower rest) with
    | "inf" | "infinity" => some (ofPlace negative infinityBits)
    | "nan" => some (Float.ofBits 0x7FF8000000000000)
    | _ => (numeral? negative rest).map Numeral.toFloat

end SqlDialect.Decimal
