import SqlDialect.Text.Offset
import SqlDialect.Proofs.Keyword

/-!
# Checked access by byte offsets

Positions in a text count characters, and what lies beyond a text is nothing. A program that works on the UTF-8 form
of a text counts bytes, and it stops where it indexes beyond the text, cuts a character in two or subtracts too much.
The modules below this one spell out the conversion with such offsets. Every access that may stop the program is
`Checked`, and it is shown that none does: at the offset of a position, each function gives what its counterpart gives
for the position.

* `slice_byteOffset`: between two positions a text may be cut.
* `step_wide`: a scan that passes over bytes beyond ASCII passes over whole characters.
-/

namespace SqlDialect.Bytes

open Text

/-- A computation with checked access. It has no value if it stops at an offset that is out of range or within a
character, or at a difference below zero. -/
abbrev Checked (α : Type) := Option α

/-! ## The bytes of a text -/

/-- The bytes of a character, each as the character with its number. -/
def charBytes (c : Char) : List Char := (String.utf8EncodeChar c).map Char.ofUInt8

/-- The bytes of a text. -/
def bytes (text : Text) : List Char := text.flatMap charBytes

/-- The byte at an offset, if the offset is in range. -/
def byte? (text : Text) (i : Nat) : Option Char := (bytes text)[i]?

/-- Is the character or byte beyond ASCII? -/
def Wide (c : Char) : Prop := 0x80 ≤ c.toNat

instance (c : Char) : Decidable (Wide c) := inferInstanceAs (Decidable (0x80 ≤ c.toNat))

section Wide

variable {c d : Char}

theorem utf8Size_of_not_wide (h : ¬ Wide c) : c.utf8Size = 1 := by
  rw [Char.utf8Size_eq_one_iff, UInt32.le_iff_toNat_le]
  simp only [Wide, Char.toNat] at h
  simp only [UInt32.toNat_ofNat]
  omega

/-- Only a character beyond ASCII has bytes behind the first. -/
theorem wide_of_lt_utf8Size {k : Nat} (hk : 0 < k) (h : k < c.utf8Size) : Wide c :=
  Decidable.byContradiction fun hw => by
    rw [utf8Size_of_not_wide hw] at h
    omega

theorem toNat_ofUInt8 (u : UInt8) : (Char.ofUInt8 u).toNat = u.toNat := UInt8.toNat_toUInt32 u

theorem ofUInt8_inj {u v : UInt8} (h : Char.ofUInt8 u = Char.ofUInt8 v) : u = v := by
  have hnat := congrArg Char.toNat h
  rw [toNat_ofUInt8, toNat_ofUInt8] at hnat
  exact UInt8.toNat_inj.mp hnat

theorem charBytes_of_not_wide (h : ¬ Wide c) : charBytes c = [c] := by
  rw [charBytes, String.utf8EncodeChar_eq_singleton (utf8Size_of_not_wide h), List.map_singleton, List.cons.injEq]
  refine ⟨Char.ext (UInt32.toNat_inj.mp ?_), rfl⟩
  show (Char.ofUInt8 c.val.toUInt8).toNat = c.toNat
  rw [toNat_ofUInt8, UInt32.toNat_toUInt8]
  simp only [Wide, Char.toNat] at h ⊢
  omega

/-- All bytes of a character beyond ASCII are beyond ASCII. -/
theorem wide_of_mem_charBytes (h : Wide c) : ∀ b ∈ charBytes c, Wide b := by
  intro b hb
  obtain ⟨u, hu, rfl⟩ := List.mem_map.mp hb
  have hlt : ¬ c.val.toNat ≤ 127 := by
    simp only [Wide, Char.toNat] at h
    omega
  have hbyte : 128 ≤ u.toNat := by
    rw [String.utf8EncodeChar, if_neg hlt] at hu
    split at hu
    · simp only [List.mem_cons, List.not_mem_nil, or_false] at hu
      rcases hu with rfl | rfl <;> simp only [UInt8.toNat_ofNat'] <;> omega
    · split at hu
      · simp only [List.mem_cons, List.not_mem_nil, or_false] at hu
        rcases hu with rfl | rfl | rfl <;> simp only [UInt8.toNat_ofNat'] <;> omega
      · simp only [List.mem_cons, List.not_mem_nil, or_false] at hu
        rcases hu with rfl | rfl | rfl | rfl <;> simp only [UInt8.toNat_ofNat'] <;> omega
  rwa [Wide, toNat_ofUInt8]

theorem length_charBytes (c : Char) : (charBytes c).length = c.utf8Size := by
  rw [charBytes, List.length_map, String.length_utf8EncodeChar]

/-- No character starts with a byte that stands within another. -/
theorem head_charBytes_ne {b : Char} {k : Nat} (hk : 0 < k) (hb : (charBytes c)[k]? = some b) :
    (charBytes d).head? ≠ some b := by
  intro hd
  rw [charBytes, List.getElem?_map] at hb
  rw [List.head?_eq_getElem?, charBytes, List.getElem?_map] at hd
  obtain ⟨u, hu, rfl⟩ := Option.map_eq_some_iff.mp hb
  obtain ⟨v, hv, hvu⟩ := Option.map_eq_some_iff.mp hd
  obtain rfl := ofUInt8_inj hvu
  obtain ⟨hk', huk⟩ := List.getElem?_eq_some_iff.mp hu
  obtain ⟨h0, hv0⟩ := List.getElem?_eq_some_iff.mp hv
  have hfirst : v.IsUTF8FirstByte := hv0 ▸ UInt8.isUTF8FirstByte_getElem_utf8EncodeChar.mpr rfl
  rw [← huk, UInt8.isUTF8FirstByte_getElem_utf8EncodeChar] at hfirst
  exact Nat.ne_of_gt hk hfirst

theorem ne_of_wide (h : Wide c) (hd : ¬ Wide d) : c ≠ d := fun e => hd (e ▸ h)

theorem isWord_of_wide (h : Wide c) : isWord c = true := by
  have h' : 0x80 ≤ c.toNat := h
  simp [isWord, h']

/-- All bytes of a word character are word characters. -/
theorem isWord_charBytes (h : isWord c = true) : ∀ b ∈ charBytes c, isWord b = true := by
  intro b hb
  by_cases hw : Wide c
  · exact isWord_of_wide (wide_of_mem_charBytes hw b hb)
  · rw [charBytes_of_not_wide hw, List.mem_singleton] at hb
    rwa [hb]

/-- A character that ends words is a single byte. -/
theorem not_wide_of_isWord (h : isWord c = false) : ¬ Wide c := fun hw => by
  rw [isWord_of_wide hw] at h
  cases h

theorem isBlank_of_wide (h : Wide c) : isBlank c = false := by
  simp [isBlank, ne_of_wide h (by decide : ¬ Wide ' '), ne_of_wide h (by decide : ¬ Wide '\t'),
    ne_of_wide h (by decide : ¬ Wide '\n'), ne_of_wide h (by decide : ¬ Wide '\x0c'),
    ne_of_wide h (by decide : ¬ Wide '\r')]

theorem isQuote_of_wide (h : Wide c) : isQuote c = false := by
  simp [isQuote, ne_of_wide h (by decide : ¬ Wide '\''), ne_of_wide h (by decide : ¬ Wide '"'),
    ne_of_wide h (by decide : ¬ Wide '\x60')]

theorem closerOf?_of_wide (h : Wide c) : closerOf? c = none := by
  unfold closerOf?
  split
  · exact absurd h (by decide)
  · exact absurd h (by decide)
  · exact absurd h (by decide)
  · rfl

theorem openerOf?_of_wide (h : Wide c) : openerOf? c = none := by
  unfold openerOf?
  split
  · exact absurd h (by decide)
  · exact absurd h (by decide)
  · exact absurd h (by decide)
  · rfl

theorem isOpener_of_wide (h : Wide c) : isOpener c = false := by
  rw [isOpener, closerOf?_of_wide h]
  rfl

theorem isCloser_of_wide (h : Wide c) : isCloser c = false := by
  rw [isCloser, openerOf?_of_wide h]
  rfl

theorem not_wide_of_isQuote (h : isQuote c = true) : ¬ Wide c := fun hw => by
  rw [isQuote_of_wide hw] at h
  cases h

theorem not_wide_of_isOpener (h : isOpener c = true) : ¬ Wide c := fun hw => by
  rw [isOpener_of_wide hw] at h
  cases h

/-- What opens a literal or a bracket is a single byte. -/
theorem not_wide_of_opens (h : (isQuote c || isOpener c) = true) : ¬ Wide c := by
  rcases Bool.or_eq_true_iff.mp h with h | h
  · exact not_wide_of_isQuote h
  · exact not_wide_of_isOpener h

theorem opens_of_wide (h : Wide c) : (isQuote c || isOpener c) = false := by
  rw [isQuote_of_wide h, isOpener_of_wide h]
  rfl

end Wide

/-! ## Offsets of positions -/

section Offset

variable {text rest : Text} {c : Char} {i j k : Nat}

theorem byteLength_append (a b : Text) : byteLength (a ++ b) = byteLength a + byteLength b := by
  induction a with
  | nil => simp [byteLength]
  | cons c a ih => simp only [List.cons_append, byteLength, ih]; omega

theorem byteLength_pos {text : Text} (h : text ≠ []) : 0 < byteLength text := by
  obtain ⟨c, t, rfl⟩ := List.exists_cons_of_ne_nil h
  have := Char.utf8Size_pos c
  rw [byteLength]
  omega

theorem bytes_cons (c : Char) (text : Text) : bytes (c :: text) = charBytes c ++ bytes text := rfl

theorem bytes_append (a b : Text) : bytes (a ++ b) = bytes a ++ bytes b := List.flatMap_append

theorem length_bytes (text : Text) : (bytes text).length = byteLength text := by
  induction text with
  | nil => rfl
  | cons c text ih => rw [bytes_cons, List.length_append, length_charBytes, ih, byteLength]

theorem byteLength_eq (text : Text) (i : Nat) : byteLength text = byteOffset text i + byteLength (text.drop i) := by
  conv => lhs; rw [← List.take_append_drop i text, byteLength_append]
  rfl

theorem byteOffset_add (text : Text) (i n : Nat) :
    byteOffset text (i + n) = byteOffset text i + byteLength ((text.drop i).take n) := by
  rw [byteOffset, byteOffset, List.take_add, byteLength_append]

theorem byteLength_left (done rest : Text) : byteLength done = byteOffset (done ++ rest) done.length := by
  rw [byteOffset, List.take_left]

theorem take_left_add (done rest : Text) (k : Nat) : (done ++ rest).take (done.length + k) = done ++ rest.take k := by
  rw [List.take_add, List.take_left, List.drop_left]

theorem drop_left_add (done rest : Text) (k : Nat) : (done ++ rest).drop (done.length + k) = rest.drop k := by
  rw [← List.drop_drop, List.drop_left]

theorem byteOffset_left_add (done rest : Text) (k : Nat) :
    byteOffset (done ++ rest) (done.length + k) = byteLength (done ++ rest.take k) := by
  rw [byteOffset, take_left_add]

@[simp] theorem byteOffset_zero (text : Text) : byteOffset text 0 = 0 := by rw [byteOffset, List.take_zero]; rfl

theorem byteOffset_of_le (h : text.length ≤ i) : byteOffset text i = byteLength text := by
  rw [byteOffset, List.take_of_length_le h]

theorem byteOffset_mono (h : i ≤ j) : byteOffset text i ≤ byteOffset text j := by
  obtain ⟨n, rfl⟩ := Nat.le.dest h
  rw [byteOffset_add]
  omega

theorem byteOffset_le (text : Text) (i : Nat) : byteOffset text i ≤ byteLength text := by
  have h : byteOffset text i ≤ byteOffset text (i + text.length) := byteOffset_mono (Nat.le_add_right ..)
  rwa [byteOffset_of_le (Nat.le_add_left ..)] at h

theorem byteOffset_succ (h : text.drop i = c :: rest) : byteOffset text (i + 1) = byteOffset text i + c.utf8Size := by
  rw [byteOffset_add, h, List.take_succ_cons, List.take_zero]
  simp [byteLength]

theorem byteOffset_lt_succ (h : i < text.length) : byteOffset text i < byteOffset text (i + 1) := by
  rw [byteOffset_succ (List.drop_eq_getElem_cons h)]
  have := Char.utf8Size_pos text[i]
  omega

/-- Positions are in the order of their offsets. -/
theorem byteOffset_lt_iff (hj : j ≤ text.length) :
    byteOffset text i < byteOffset text j ↔ i < j := by
  constructor
  · intro h
    refine Nat.lt_of_not_le fun hle => ?_
    exact absurd (byteOffset_mono hle) (Nat.not_le_of_lt h)
  · intro h
    have h1 := byteOffset_lt_succ (Nat.lt_of_lt_of_le h hj)
    exact Nat.lt_of_lt_of_le h1 (byteOffset_mono h)

theorem byteOffset_lt_length (h : i < text.length) : byteOffset text i < byteLength text := by
  rw [← byteOffset_of_le (Nat.le_refl text.length)]
  exact (byteOffset_lt_iff (Nat.le_refl _)).mpr h

theorem byte?_byteOffset_add (h : text.drop i = c :: rest) (hk : k < c.utf8Size) :
    byte? text (byteOffset text i + k) = (charBytes c)[k]? := by
  have htext : bytes text = bytes (text.take i) ++ (charBytes c ++ bytes rest) := by
    conv => lhs; rw [← List.take_append_drop i text, h, bytes_append, bytes_cons]
  have hlen : byteOffset text i = (bytes (text.take i)).length := by rw [length_bytes, byteOffset]
  rw [byte?, htext, hlen, List.getElem?_append_right (Nat.le_add_right _ _), Nat.add_sub_cancel_left,
    List.getElem?_append_left (by rwa [length_charBytes])]

/-- At the offset of an ASCII character stands the character. -/
theorem byte?_byteOffset (h : text.drop i = c :: rest) (hc : ¬ Wide c) : byte? text (byteOffset text i) = some c := by
  have := byte?_byteOffset_add h (Char.utf8Size_pos c)
  rwa [Nat.add_zero, charBytes_of_not_wide hc] at this

/-- Within the bytes of a character beyond ASCII all bytes are beyond ASCII. -/
theorem byte?_wide (h : text.drop i = c :: rest) (hc : Wide c) (hk : k < c.utf8Size) :
    ∃ b, byte? text (byteOffset text i + k) = some b ∧ Wide b := by
  have hlen : k < (charBytes c).length := by rwa [length_charBytes]
  refine ⟨(charBytes c)[k], ?_, wide_of_mem_charBytes hc _ (List.getElem_mem hlen)⟩
  rw [byte?_byteOffset_add h hk, List.getElem?_eq_getElem hlen]

theorem byte?_eq_none (h : byteLength text ≤ k) : byte? text k = none := by
  rw [byte?, List.getElem?_eq_none_iff, length_bytes]
  exact h

theorem exists_byte?_of_lt (h : k < byteLength text) : ∃ b, byte? text k = some b :=
  ⟨_, List.getElem?_eq_getElem (by rwa [length_bytes])⟩

theorem lt_of_byte? {b : Char} (h : byte? text k = some b) : k < byteLength text := by
  rw [byte?, List.getElem?_eq_some_iff] at h
  obtain ⟨hlt, -⟩ := h
  rwa [length_bytes] at hlt

theorem byteOffset_succ_of_not_wide (h : text.drop i = c :: rest) (hc : ¬ Wide c) :
    byteOffset text (i + 1) = byteOffset text i + 1 := by
  rw [byteOffset_succ h, utf8Size_of_not_wide hc]

/-- At the end of a text stands no byte. -/
theorem byte?_end (h : text.drop i = []) : byte? text (byteOffset text i) = none :=
  byte?_eq_none (Nat.le_of_eq (byteOffset_of_le (List.drop_eq_nil_iff.mp h)).symm)

/-- At the offset of a position stands a byte beyond ASCII if the character is beyond ASCII, and otherwise it. -/
theorem byte?_cases (h : text.drop i = c :: rest) :
    (¬ Wide c ∧ byte? text (byteOffset text i) = some c) ∨
      Wide c ∧ ∃ b, byte? text (byteOffset text i) = some b ∧ Wide b := by
  by_cases hc : Wide c
  · have hb := byte?_wide h hc (Char.utf8Size_pos c)
    rw [Nat.add_zero] at hb
    exact Or.inr ⟨hc, hb⟩
  · exact Or.inl ⟨hc, byte?_byteOffset h hc⟩

/-- What holds of the character at a position and of all that is beyond ASCII holds of the byte there. -/
theorem byte?_of_char {p : Char → Prop} (h : text.drop i = c :: rest) (hc : p c) (hp : ∀ b, Wide b → p b) :
    ∃ b, byte? text (byteOffset text i) = some b ∧ p b := by
  obtain ⟨-, hb⟩ | ⟨-, b, hb, hw⟩ := byte?_cases h
  · exact ⟨c, hb, hc⟩
  · exact ⟨b, hb, hp b hw⟩

theorem exists_byte? (h : text.drop i = c :: rest) : ∃ b, byte? text (byteOffset text i) = some b := by
  obtain ⟨-, hb⟩ | ⟨-, b, hb, -⟩ := byte?_cases h
  · exact ⟨c, hb⟩
  · exact ⟨b, hb⟩

/-- Looking for an ASCII character by its byte. -/
theorem byte?_eq_some_iff {d : Char} (hd : ¬ Wide d) :
    byte? text (byteOffset text i) = some d ↔ (text.drop i).head? = some d := by
  cases h : text.drop i with
  | nil => rw [byte?_end h, List.head?_nil]
  | cons c rest =>
    rw [List.head?_cons]
    obtain ⟨-, hb⟩ | ⟨hc, b, hb, hw⟩ := byte?_cases h
    · rw [hb]
    · rw [hb]
      simp [ne_of_wide hw hd, ne_of_wide hc hd]

/-- Asking by its byte for a class that holds all that is beyond ASCII or nothing of it. -/
theorem map_byte? {p : Char → Bool} {v : Bool} (hp : ∀ c, Wide c → p c = v) (text : Text) (i : Nat) :
    (byte? text (byteOffset text i)).map p = (text.drop i).head?.map p := by
  cases h : text.drop i with
  | nil => rw [byte?_end h, List.head?_nil]
  | cons c rest =>
    rw [List.head?_cons, Option.map_some]
    obtain ⟨-, hb⟩ | ⟨hc, b, hb, hw⟩ := byte?_cases h
    · rw [hb, Option.map_some]
    · rw [hb, Option.map_some, hp b hw, hp c hc]

/-- Every offset in range lies within a character. -/
theorem exists_char (hk : k < byteLength text) :
    ∃ i m c rest, k = byteOffset text i + m ∧ text.drop i = c :: rest ∧ m < c.utf8Size := by
  induction text generalizing k with
  | nil => exact absurd hk (Nat.not_lt_zero k)
  | cons c rest ih =>
    rw [byteLength] at hk
    by_cases hlt : k < c.utf8Size
    · exact ⟨0, k, c, rest, by rw [byteOffset_zero, Nat.zero_add], rfl, hlt⟩
    · obtain ⟨i, m, d, tail, hm, hdrop, hsize⟩ := ih (k := k - c.utf8Size) (by omega)
      have hsucc : byteOffset (c :: rest) (i + 1) = c.utf8Size + byteOffset rest i := rfl
      exact ⟨i + 1, m, d, tail, by omega, hdrop, hsize⟩

/-- A byte of ASCII is a character. -/
theorem exists_position {b : Char} (hb : byte? text k = some b) (hw : ¬ Wide b) :
    ∃ i rest, k = byteOffset text i ∧ text.drop i = b :: rest := by
  obtain ⟨i, m, c, rest, rfl, h, hm⟩ := exists_char (lt_of_byte? hb)
  by_cases hc : Wide c
  · obtain ⟨b', hb', hwb⟩ := byte?_wide h hc hm
    rw [Option.some.inj (hb.symm.trans hb')] at hw
    exact absurd hwb hw
  · have hzero : m = 0 := by
      rw [utf8Size_of_not_wide hc] at hm
      omega
    subst hzero
    rw [Nat.add_zero, byte?_byteOffset h hc] at hb
    exact ⟨i, rest, rfl, by rw [h, Option.some.inj hb]⟩

/-! ## Scans -/

/-- A scan that passes over every offset of a character from some offset on goes on behind the character. -/
theorem step_from {α : Type} {f : Nat → Checked α} (h : text.drop i = c :: rest) {m : Nat} (hm : m ≤ c.utf8Size)
    (hf : ∀ k, m ≤ k → k < c.utf8Size → f (byteOffset text i + k) = f (byteOffset text i + k + 1)) :
    f (byteOffset text i + m) = f (byteOffset text (i + 1)) := by
  have hsteps : ∀ n, m + n ≤ c.utf8Size → f (byteOffset text i + m) = f (byteOffset text i + (m + n)) := by
    intro n
    induction n with
    | zero => exact fun _ => rfl
    | succ n ih =>
      intro hn
      rw [ih (by omega), hf (m + n) (Nat.le_add_right ..) (by omega)]
      rfl
  rw [hsteps (c.utf8Size - m) (by omega), byteOffset_succ h, Nat.add_sub_cancel' hm]

/-- A scan that passes over every byte beyond ASCII passes over a character beyond ASCII. -/
theorem step_wide {α : Type} {f : Nat → Checked α} (h : text.drop i = c :: rest) (hc : Wide c)
    (hf : ∀ j b, byte? text j = some b → Wide b → f j = f (j + 1)) :
    f (byteOffset text i) = f (byteOffset text (i + 1)) :=
  step_from h (Nat.zero_le _) fun _ _ hk => by
    obtain ⟨b, hb, hw⟩ := byte?_wide h hc hk
    exact hf _ b hb hw

/-- The same behind the first byte, for a scan that looks at the byte in front as well. -/
theorem step_wide_tail {α : Type} {f : Nat → Checked α} (h : text.drop i = c :: rest) (hc : Wide c)
    (hf : ∀ j a b, byte? text j = some a → Wide a → byte? text (j + 1) = some b → Wide b → f (j + 1) = f (j + 2)) :
    f (byteOffset text i + 1) = f (byteOffset text (i + 1)) :=
  step_from h (Char.utf8Size_pos c) fun k hk₁ hk => by
    obtain ⟨k, rfl⟩ := Nat.exists_eq_add_of_le' hk₁
    obtain ⟨a, ha, hwa⟩ := byte?_wide h hc (Nat.lt_of_succ_lt hk)
    obtain ⟨b, hb, hwb⟩ := byte?_wide h hc hk
    exact hf _ a b ha hwa hb hwb

end Offset

/-! ## Checked access -/

/-- The part of a text between two offsets. -/
def slice (text : Text) (start stop : Nat) : Checked Text := do
  let i ← position? text start
  let j ← position? text stop
  if i ≤ j then some (Text.slice text i j) else none

/-- The bytes of a text from an offset on. -/
def bytesFrom (text : Text) (i : Nat) : Checked (List Char) :=
  if i ≤ byteLength text then some ((bytes text).drop i) else none

/-- The part of a text from an offset on. -/
def sliceFrom (text : Text) (start : Nat) : Checked Text := slice text start (byteLength text)

/-- The text with something else between two offsets. -/
def replaceRange (text : Text) (start stop : Nat) (new : Text) : Checked Text := do
  let i ← position? text start
  let j ← position? text stop
  if i ≤ j then some (text.take i ++ new ++ text.drop j) else none

/-- A difference of two offsets. -/
def minus (a b : Nat) : Checked Nat := if b ≤ a then some (a - b) else none

section Access

variable {text : Text} {i j : Nat}

/-- The part of a text behind a position is read in place. -/
theorem slice_drop (text : Text) (k i j : Nat) : Text.slice text (k + i) (k + j) = Text.slice (text.drop k) i j := by
  rw [Text.slice, Text.slice, List.take_drop, List.drop_drop]

theorem slice_take (text : Text) (k i : Nat) : Text.slice text k (k + i) = (text.drop k).take i := by
  rw [Text.slice, List.take_drop]

theorem drop_bytes (text : Text) (i : Nat) : (bytes text).drop (byteOffset text i) = bytes (text.drop i) := by
  conv => lhs; rw [← List.take_append_drop i text, bytes_append]
  have hlen : byteOffset (text.take i ++ text.drop i) i = (bytes (text.take i)).length := by
    rw [List.take_append_drop, length_bytes, byteOffset]
  rw [hlen, List.drop_left]

theorem bytesFrom_byteOffset (text : Text) (i : Nat) :
    bytesFrom text (byteOffset text i) = some (bytes (text.drop i)) := by
  rw [bytesFrom, if_pos (byteOffset_le text i), drop_bytes]

/-- Taking bytes of a class that holds all that is beyond ASCII or nothing of it takes whole characters. -/
theorem takeWhile_bytes {p : Char → Bool} {v : Bool} (hp : ∀ c, Wide c → p c = v) (t : Text) :
    (bytes t).takeWhile p = bytes (t.takeWhile p) := by
  induction t with
  | nil => rfl
  | cons c t ih =>
    rw [bytes_cons, List.takeWhile_cons]
    by_cases hw : Wide c
    · cases v with
      | true =>
        have hall : ∀ b ∈ charBytes c, p b = true := fun b hb => hp b (wide_of_mem_charBytes hw b hb)
        rw [List.takeWhile_append_of_pos hall, ih, hp c hw, if_pos rfl, bytes_cons]
      | false =>
        obtain ⟨b, bs, hbs⟩ : ∃ b bs, charBytes c = b :: bs := by
          have hpos := Char.utf8Size_pos c
          rw [← length_charBytes] at hpos
          exact List.exists_cons_of_length_pos hpos
        have hb : p b = false := hp b (wide_of_mem_charBytes hw b (by rw [hbs]; exact List.mem_cons_self))
        rw [hbs, List.cons_append, List.takeWhile_cons, hb, hp c hw]
        rfl
    · rw [charBytes_of_not_wide hw, List.singleton_append, List.takeWhile_cons]
      cases p c with
      | true => rw [if_pos rfl, if_pos rfl, bytes_cons, charBytes_of_not_wide hw, ih, List.singleton_append]
      | false => rfl

/-- The characters of a class that a text starts with. -/
theorem take_length_takeWhile (p : Char → Bool) (t : Text) : t.take (t.takeWhile p).length = t.takeWhile p :=
  (List.prefix_iff_eq_take.mp (List.takeWhile_prefix p)).symm

/-- The offset behind the bytes of a class that stand at a position. -/
theorem byteOffset_behind {p : Char → Bool} {v : Bool} (hp : ∀ c, Wide c → p c = v) (text : Text) (i : Nat) :
    byteOffset text i + ((bytes (text.drop i)).takeWhile p).length =
      byteOffset text (i + ((text.drop i).takeWhile p).length) := by
  rw [takeWhile_bytes hp, length_bytes, byteOffset_add, take_length_takeWhile]

/-- Between two positions a text may be cut. -/
theorem slice_byteOffset (hij : i ≤ j) (hj : j ≤ text.length) :
    slice text (byteOffset text i) (byteOffset text j) = some (Text.slice text i j) := by
  simp only [slice, position?_byteOffset text (Nat.le_trans hij hj), position?_byteOffset text hj, Option.bind_eq_bind,
    Option.bind_some, if_pos hij]

example : slice ['é', 'a'] 2 3 = some ['a'] ∧ slice ['é', 'a'] 1 3 = none := by decide

theorem sliceFrom_byteOffset (hi : i ≤ text.length) : sliceFrom text (byteOffset text i) = some (text.drop i) := by
  rw [sliceFrom, ← byteOffset_of_le (Nat.le_refl text.length), slice_byteOffset hi (Nat.le_refl _), Text.slice,
    List.take_length]

theorem replaceRange_byteOffset (hij : i ≤ j) (hj : j ≤ text.length) (new : Text) :
    replaceRange text (byteOffset text i) (byteOffset text j) new = some (text.take i ++ new ++ text.drop j) := by
  simp only [replaceRange, position?_byteOffset text (Nat.le_trans hij hj), position?_byteOffset text hj,
    Option.bind_eq_bind, Option.bind_some, if_pos hij]

theorem minus_of_le {a b : Nat} (h : b ≤ a) : minus a b = some (a - b) := if_pos h

/-- A step back does not stay in place. -/
theorem lt_of_minus (h : minus i 1 = some j) : j < i := by
  obtain ⟨hle, hj⟩ := Option.ite_none_right_eq_some.mp h
  rw [← Option.some.inj hj]
  exact Nat.sub_lt hle Nat.one_pos

/-- An offset that has a position is the offset of the position. -/
theorem byteOffset_position? (h : position? text i = some j) : byteOffset text j = i ∧ j ≤ text.length := by
  induction text generalizing i j with
  | nil =>
    cases i with
    | zero => cases h; exact ⟨rfl, Nat.zero_le _⟩
    | succ i => cases h
  | cons c rest ih =>
    cases i with
    | zero => cases h; exact ⟨rfl, Nat.zero_le _⟩
    | succ i =>
      rw [position?] at h
      · split at h
        · cases h
        · obtain ⟨m, hm, rfl⟩ := Option.map_eq_some_iff.mp h
          obtain ⟨hoffset, hle⟩ := ih hm
          have hsucc : byteOffset (c :: rest) (m + 1) = c.utf8Size + byteOffset rest m := rfl
          exact ⟨by omega, Nat.succ_le_succ hle⟩
      · exact Nat.succ_ne_zero i

/-- A replacement puts the new part in the place of the old one. -/
theorem byteLength_replaceRange {new out : Text} (h : replaceRange text i j new = some out) :
    j ≤ byteLength text ∧ byteLength out = i + byteLength new + (byteLength text - j) := by
  obtain ⟨m, hm, h⟩ := Option.bind_eq_some_iff.mp h
  obtain ⟨n, hn, h⟩ := Option.bind_eq_some_iff.mp h
  obtain ⟨-, h⟩ := Option.ite_none_right_eq_some.mp h
  cases h
  obtain ⟨rfl, -⟩ := byteOffset_position? hm
  obtain ⟨rfl, -⟩ := byteOffset_position? hn
  have hlen := congrArg byteLength (List.take_append_drop n text)
  rw [byteLength_append] at hlen
  rw [byteLength_append, byteLength_append, byteOffset, byteOffset]
  omega

end Access

end SqlDialect.Bytes
