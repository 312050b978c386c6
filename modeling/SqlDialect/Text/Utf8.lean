import SqlDialect.Text

/-!
# Reading bytes as text

`decodeLossy` reads bytes as UTF-8 and puts one replacement character for each maximal piece that does not belong to a
well-formed sequence: a piece is the longest beginning of a sequence, or a single byte that begins none.

* `readTail_length_le`: reading a sequence leaves no more bytes than there were.
-/

namespace SqlDialect.Utf8

/-- The character put for bytes that are no text. -/
def replacement : Char := '\uFFFD'

/-- What a first byte starts: the bits that it gives and the ranges of the bytes that have to follow. -/
structure Lead where
  bits : Nat
  ranges : List (Nat × Nat)
  deriving DecidableEq, Repr

/-- The range of a byte that continues a sequence. -/
def tailRange : Nat × Nat := (0x80, 0xBF)

/-- What the byte `b` starts. The first byte behind some leads is bound more closely, so that no sequence is longer
than it needs to be and none stands for a surrogate or a number beyond the last character. -/
def lead? (b : Nat) : Option Lead :=
  if b < 0x80 then some ⟨b, []⟩
  else if b < 0xC2 then none
  else if b < 0xE0 then some ⟨b % 0x20, [tailRange]⟩
  else if b = 0xE0 then some ⟨0, [(0xA0, 0xBF), tailRange]⟩
  else if b = 0xED then some ⟨0xD, [(0x80, 0x9F), tailRange]⟩
  else if b < 0xF0 then some ⟨b % 0x10, [tailRange, tailRange]⟩
  else if b = 0xF0 then some ⟨0, [(0x90, 0xBF), tailRange, tailRange]⟩
  else if b < 0xF4 then some ⟨b % 8, [tailRange, tailRange, tailRange]⟩
  else if b = 0xF4 then some ⟨4, [(0x80, 0x8F), tailRange, tailRange]⟩
  else none

/-- The rest of a sequence: the number that it denotes, unless it breaks off, and the bytes behind it. -/
def readTail : (ranges : List (Nat × Nat)) → (bits : Nat) → List UInt8 → Option Nat × List UInt8
  | [], bits, bytes => (some bits, bytes)
  | _ :: _, _, [] => (none, [])
  | (low, high) :: ranges, bits, b :: bytes =>
    if low ≤ b.toNat ∧ b.toNat ≤ high then readTail ranges (bits * 64 + b.toNat % 64) bytes
    else (none, b :: bytes)

/-- Reading a sequence leaves no more bytes than there were. -/
theorem readTail_length_le (ranges : List (Nat × Nat)) (bits : Nat) (bytes : List UInt8) :
    (readTail ranges bits bytes).2.length ≤ bytes.length := by
  fun_induction readTail ranges bits bytes with
  | case1 => simp
  | case2 => simp
  | case3 low high ranges bits b bytes h ih => simp only [List.length_cons]; omega
  | case4 => simp

/-- The text of the bytes, with a replacement character for each piece that is no text. -/
def decodeLossy : List UInt8 → Text
  | [] => []
  | b :: bytes =>
    match lead? b.toNat with
    | none => replacement :: decodeLossy bytes
    | some lead =>
      match _h : readTail lead.ranges lead.bits bytes with
      | (some n, rest) => Char.ofNat n :: decodeLossy rest
      | (none, rest) => replacement :: decodeLossy rest
termination_by bytes => bytes.length
decreasing_by
  · simp
  all_goals
    have h1 := readTail_length_le lead.ranges lead.bits bytes
    rw [_h] at h1
    simp only [List.length_cons] at h1 ⊢
    omega

end SqlDialect.Utf8
