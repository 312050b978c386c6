import SqlDialect.Text

/-!
# The shortest decimal that reads back

Of the decimals that are read as a given binary number, `shortest` takes one with the fewest digits, and among those
the nearest. It works on the exact value `m · 2 ^ q`: the numbers that round to it lie between the two midpoints to its
neighbours, which count themselves if `m` is even. For each number of digits only the two decimals around the value
are tried.

`Layout` says how the digits are written out.
-/

namespace SqlDialect.Decimal

/-- A decimal `0.d₁d₂… · 10 ^ (point)` by its digits, without zeros at its ends, and the place of its point. -/
structure Digits where
  digits : Text
  point : Int
  deriving DecidableEq, Repr

/-! ## The exact value -/

/-- The positive binary number `mantissa · 2 ^ exponent`. -/
structure Binary where
  mantissa : Nat
  exponent : Int
  deriving DecidableEq, Repr

/-- The binary number with the given bits, its sign left out. -/
def Binary.ofBits (bits : Nat) : Binary :=
  let fraction : Nat := bits % Nat.pow 2 52
  let field : Nat := bits / Nat.pow 2 52 % Nat.pow 2 11
  if field = 0 then ⟨fraction, -1074⟩ else ⟨Nat.pow 2 52 + fraction, (field : Int) - 1075⟩

/-- A non-negative quotient. -/
structure Ratio where
  num : Nat
  den : Nat
  deriving DecidableEq, Repr

/-- The quotient `n · 2 ^ e`. -/
def Ratio.scaled (n : Nat) (e : Int) : Ratio := ⟨n * Nat.pow 2 e.toNat, Nat.pow 2 (-e).toNat⟩

/-- Is one quotient at most the other? -/
def Ratio.le (a b : Ratio) : Bool := a.num * b.den ≤ b.num * a.den

/-- Is one quotient less than the other? -/
def Ratio.lt (a b : Ratio) : Bool := a.num * b.den < b.num * a.den

/-- The quotient `d · 10 ^ e`. -/
def Ratio.decimal (d : Nat) (e : Int) : Ratio := ⟨d * Nat.pow 10 e.toNat, Nat.pow 10 (-e).toNat⟩

/-- Does the quotient round to the binary number? The gap below a power of two is half as wide as the one above. -/
def Binary.holds (b : Binary) (r : Ratio) : Bool :=
  let below := if b.mantissa = Nat.pow 2 52 && -1074 < b.exponent then 4 * b.mantissa - 1 else 4 * b.mantissa - 2
  let low := Ratio.scaled below (b.exponent - 2)
  let high := Ratio.scaled (4 * b.mantissa + 2) (b.exponent - 2)
  if b.mantissa % 2 = 0 then low.le r && r.le high else low.lt r && r.lt high

/-! ## The search -/

/-- The exponent of the greatest power of ten that is at most the quotient. -/
def Ratio.exponent (r : Ratio) : Int :=
  let guess : Int := ((r.num.log2 : Int) - r.den.log2) * 30103 / 100000
  if r.lt (Ratio.decimal 1 guess) then guess - 1
  else if (Ratio.decimal 1 (guess + 1)).le r then guess + 1
  else guess

/-- The one of two neighbouring decimals `d · 10 ^ e` and `(d + 1) · 10 ^ e` around `r` that rounds to `b`; if both do,
the nearer one, and the even one of two equally near. -/
def neighbour? (b : Binary) (r : Ratio) (d : Nat) (e : Int) : Option Nat :=
  let low := b.holds (Ratio.decimal d e)
  let high := b.holds (Ratio.decimal (d + 1) e)
  if low && high then
    let middle := Ratio.decimal (10 * d + 5) (e - 1)
    if r.lt middle then some d else if middle.lt r then some (d + 1) else some (d + d % 2)
  else if low then some d
  else if high then some (d + 1)
  else none

/-- The greatest `d` such that `d · 10 ^ e` is at most the quotient. -/
def Ratio.floor (r : Ratio) (e : Int) : Nat := r.num * Nat.pow 10 (-e).toNat / (r.den * Nat.pow 10 e.toNat)

/-- The decimal with the fewest digits that rounds to `b`, trying `count` digits and up to `more` further ones, where
the first digit has the exponent `k`. -/
def searchDigits (b : Binary) (r : Ratio) (k : Int) : (count more : Nat) → Nat × Int
  | count, more =>
    let e := k - count + 1
    match neighbour? b r (r.floor e) e, more with
    | some d, _ => (d, e)
    | none, 0 => (r.floor e, e)
    | none, more + 1 => searchDigits b r k (count + 1) more

/-- The shortest decimal that is read as the given positive binary number. -/
def shortest (b : Binary) : Digits :=
  let r := Ratio.scaled b.mantissa b.exponent
  let (d, e) := searchDigits b r r.exponent 1 16
  let digits := (toString d).toList
  ⟨(digits.reverse.dropWhile (· = '0')).reverse, digits.length + e⟩

/-! ## Writing it out -/

/-- How a decimal is written: plainly if the exponent of its first digit lies from `least` to `most`, with at least
one digit behind the point, and with a signed power of ten otherwise. -/
structure Layout where
  least : Int
  most : Int
  deriving DecidableEq, Repr

/-- A positive decimal in plain notation. -/
def Digits.plain (d : Digits) : Text :=
  let n := d.point.toNat
  if d.point ≤ 0 then ['0', '.'] ++ List.replicate (-d.point).toNat '0' ++ d.digits
  else if d.digits.length ≤ n then d.digits ++ List.replicate (n - d.digits.length) '0' ++ ['.', '0']
  else d.digits.take n ++ ['.'] ++ d.digits.drop n

/-- A positive decimal with a power of ten. -/
def Digits.scientific (d : Digits) : Text :=
  let e := d.point - 1
  let sign := if e < 0 then '-' else '+'
  let fraction := if d.digits.length ≤ 1 then [] else '.' :: d.digits.drop 1
  d.digits.take 1 ++ fraction ++ ['e', sign] ++ (toString e.natAbs).toList

/-- A positive decimal in the given layout. -/
def Layout.write (l : Layout) (d : Digits) : Text :=
  if l.least ≤ d.point - 1 ∧ d.point - 1 ≤ l.most then d.plain else d.scientific

/-- A finite binary number, given by its bits, in the given layout. -/
def Layout.writeBits (l : Layout) (bits : Nat) : Text :=
  let sign := if bits / Nat.pow 2 63 % 2 = 1 then ['-'] else []
  let b := Binary.ofBits bits
  if b.mantissa = 0 then sign ++ ['0', '.', '0'] else sign ++ l.write (shortest b)

end SqlDialect.Decimal
