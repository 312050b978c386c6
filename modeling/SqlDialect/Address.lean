import SqlDialect.Decimal.Reading

/-!
# Addresses of networked databases

An address is a scheme, a colon and what the scheme makes of it. It is refused before a connection is tried if it has
no scheme, if its socket number has more than 16 bits, or if no driver serves its scheme.

* `scheme?_isScheme`: the scheme starts with a letter.
-/

namespace SqlDialect.Address

/-- Why an address is refused. -/
inductive Refusal where
  | noScheme
  | badSocket
  | noDriver (scheme : Text)
  deriving DecidableEq, Repr

/-- The refusal in words. -/
def Refusal.message : Refusal → String
  | noScheme => "relative URL without a base"
  | badSocket => "invalid port number"
  | noDriver scheme => "no driver found for URL scheme \"" ++ String.ofList scheme ++ "\""

/-- The schemes that a driver serves. -/
def served : List Text := ["mysql".toList]

/-- May the character stand in a scheme? -/
def isSchemeChar (c : Char) : Bool := c.isAlphanum || c = '+' || c = '-' || c = '.'

/-- The text without the control characters and blanks around it, and without tabs and line ends. -/
def clean (address : Text) : Text :=
  let isEdge (c : Char) : Bool := c.toNat ≤ 0x20
  let trimmed := ((address.dropWhile isEdge).reverse.dropWhile isEdge).reverse
  trimmed.filter fun c => c ≠ '\t' && c ≠ '\n' && c ≠ '\r'

/-- The scheme in lower case and what is behind its colon. -/
def scheme? (address : Text) : Option (Text × Text) :=
  let scheme := address.takeWhile isSchemeChar
  match scheme, address.dropWhile isSchemeChar with
  | c :: _, ':' :: rest => if c.isAlpha then some (Text.lower scheme, rest) else none
  | _, _ => none

/-- The scheme starts with a letter. -/
theorem scheme?_isScheme {address scheme rest : Text} (h : scheme? address = some (scheme, rest)) :
    ∃ c tail, address = c :: tail ∧ c.isAlpha = true := by
  unfold scheme? at h
  simp only at h
  split at h
  · next c tail _ ht _ =>
    split at h
    · next ha =>
      cases address with
      | nil => simp at ht
      | cons d more =>
        refine ⟨d, more, rfl, ?_⟩
        simp only [List.takeWhile_cons] at ht
        split at ht
        · cases ht; exact ha
        · cases ht
    · cases h
  · cases h

/-- The text of the socket number of an address, read behind the colon of its scheme. It follows the host, which follows
two slashes and, up to the last `@`, the user; a backslash ends it. -/
def socket : Text → Text
  | '/' :: '/' :: rest =>
    let authority := rest.takeWhile fun c => c ≠ '/' && c ≠ '?' && c ≠ '#'
    let host := (authority.reverse.takeWhile (· ≠ '@')).reverse
    let host :=
      match host with
      | '[' :: literal => (literal.dropWhile (· ≠ ']')).drop 1
      | _ => host
    ((host.dropWhile (· ≠ ':')).drop 1).takeWhile (· ≠ '\\')
  | _ => []

/-- Is the text a socket number, or empty? -/
def isSocket (text : Text) : Bool := text.all Char.isDigit && Decimal.value text ≤ 65535

/-- Why an address is refused before a connection is tried, if it is. -/
def refusal? (address : String) : Option Refusal :=
  match scheme? (clean address.toList) with
  | none => some .noScheme
  | some (scheme, rest) =>
    if !isSocket (socket rest) then some .badSocket
    else if served.contains scheme then none
    else some (.noDriver scheme)

end SqlDialect.Address
