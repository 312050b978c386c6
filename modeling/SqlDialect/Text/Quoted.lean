import SqlDialect.Text.Visible

/-!
# Quoted texts

In a log line a text stands in double quotes, with escapes for quotes, backslashes, line ends and every character
that cannot be seen on its own.

* `escape_of_isPlain`: a visible character without an escape stands for itself.
-/

namespace SqlDialect.Quoted

/-- Does the character stand for itself between quotes? -/
def isPlain (c : Char) : Bool := isVisible c && c ≠ '"' && c ≠ '\\'

/-- The form of a character between quotes. -/
def escape (c : Char) : Text :=
  if c = '"' then ['\\', '"']
  else if c = '\\' then ['\\', '\\']
  else if c = '\n' then ['\\', 'n']
  else if c = '\r' then ['\\', 'r']
  else if c = '\t' then ['\\', 't']
  else if c.toNat = 0 then ['\\', '0']
  else if isVisible c then [c]
  else ['\\', 'u', '\x7b'] ++ Nat.toDigits 16 c.toNat ++ ['\x7d']

/-- A visible character without an escape stands for itself. -/
theorem escape_of_isPlain {c : Char} (h : isPlain c = true) : escape c = [c] := by
  simp only [isPlain, Bool.and_eq_true, decide_eq_true_eq, ne_eq] at h
  obtain ⟨⟨hv, hq⟩, hb⟩ := h
  have hn : ∀ d, isVisible d = false → c ≠ d := fun d hd e => by subst e; rw [hd] at hv; cases hv
  have h0 : c.toNat ≠ 0 := fun e => by
    rw [← Char.ofNat_toNat c, e] at hv
    exact absurd hv (by decide)
  simp [escape, hq, hb, hv, hn '\n' (by decide), hn '\r' (by decide), hn '\t' (by decide), h0]

/-- The text in double quotes. -/
def write (text : Text) : Text := ['"'] ++ text.flatMap escape ++ ['"']

end SqlDialect.Quoted
