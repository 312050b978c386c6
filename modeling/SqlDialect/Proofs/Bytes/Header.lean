import SqlDialect.View.Header
import SqlDialect.Proofs.Bytes.Keyword

/-!
# View headers by byte offsets

A header is read token by token, and each token is cut off at its length in bytes. The readers of tokens are `Reader`s,
which may fail to read and which may stop the program.

* `readOptions_eq`, `readHeader_eq`: the same options and the same header are read.
-/

namespace SqlDialect.Bytes

open Text View

/-- A computation with checked access that may also fail to read. -/
abbrev Reader (α : Type) := OptionT Checked α

/-- What is read without access by offsets. -/
def Reader.ofOption {α : Type} (x : Option α) : Reader α := OptionT.mk (some x)

/-! ## Tokens -/

/-- The two parts of a text around an offset. -/
def splitAt (text : Text) (i : Nat) : Checked (Text × Text) := do
  return (← slice text 0 i, ← sliceFrom text i)

/-- The text behind `word`, if it starts with it in some letter case. -/
def skip? (word text : Text) : Reader Text := do
  if Text.starts word text then
    let (_, rest) ← splitAt text (byteLength word)
    return rest
  else failure

/-- The longest beginning of a text with the given property and the text behind it. -/
def spanAt (p : Char → Bool) (text : Text) : Checked (Text × Text) := splitAt text (byteLength (text.takeWhile p))

/-- The text behind the gap that it starts with, if it starts with one. -/
def skipGap? (text : Text) : Reader Text := do
  if text.head?.any isGap then
    let (_, rest) ← spanAt isGap text
    return rest
  else failure

/-- The text behind `word` and a gap. -/
def skipWord? (word text : Text) : Reader Text := do
  skipGap? (← skip? word text)

/-- The text behind an equals sign, with or without gaps around it. -/
def skipEquals? (text : Text) : Reader Text := do
  let (_, text) ← spanAt isGap text
  if text.head? = some '=' then
    let (_, text) ← splitAt text 1
    let (_, text) ← spanAt isGap text
    return text
  else failure

/-- The longest beginning of a text with the given property, unless it is empty, and the text behind it. -/
def takeSome? (p : Char → Bool) (text : Text) : Reader (Text × Text) := do
  if text.head?.any p then spanAt p text else failure

/-! ## Options -/

/-- The option ALGORITHM that a text starts with. -/
def readAlgorithm? (text : Text) : Reader (HeaderOption × Text) := do
  let text ← skip? algorithmWord text
  let text ← skipEquals? text
  let (name, text) ← takeSome? (fun c => c.isAlphanum || c = '_') text
  return (.algorithm name, text)

/-- The option DEFINER that a text starts with. -/
def readDefiner? (text : Text) : Reader (HeaderOption × Text) := do
  let text ← skip? definerWord text
  let text ← skipEquals? text
  let (account, text) ← takeSome? (fun c => !isSpace c) text
  return (.definer account, text)

/-- The option SQL SECURITY that a text starts with. -/
def readSecurity? (text : Text) : Reader (HeaderOption × Text) := do
  let text ← skipWord? sqlWord text
  let text ← skipWord? securityWord text
  let definer := do
    let rest ← skip? definerWord text
    return (.security .definer, rest)
  let invoker := do
    let rest ← skip? invokerWord text
    return (.security .invoker, rest)
  definer <|> invoker

/-- The option that a text starts with, and the text behind it and the gap that follows. -/
def readOption? (text : Text) : Reader (HeaderOption × Text) := do
  let (option, text) ← readAlgorithm? text <|> readDefiner? text <|> readSecurity? text
  let text ← skipGap? text
  return (option, text)

/-- The options that a text starts with, and the text behind them. -/
def readOptions (text : Text) : Checked (List HeaderOption × Text) := do
  match ← (readOption? text).run with
  | none => return ([], text)
  | some (option, rest) =>
    if rest.length < text.length then
      let (options, rest) ← readOptions rest
      return (option :: options, rest)
    else return ([], text)
termination_by text.length

/-! ## The header -/

/-- The text behind `word` and a gap, or what is missing. -/
def expectWord (word text : Text) : Checked (Except HeaderError Text) := do
  match ← (skip? word text).run with
  | none => return .error ⟨.keyword, text⟩
  | some rest =>
    match ← (skipGap? rest).run with
    | none => return .error ⟨.space, rest⟩
    | some rest => return .ok rest

/-- The text behind OR REPLACE, if it starts with it. -/
def skipOrReplace? (text : Text) : Reader Text := do
  skipWord? replaceWord (← skipWord? orWord text)

/-- The header that a text starts with. -/
def readHeader (text : Text) : Checked (Except HeaderError Header) := do
  match ← expectWord createWord text with
  | .error e => return .error e
  | .ok text =>
    let replaced ← (skipOrReplace? text).run
    let (options, text) ← readOptions (replaced.getD text)
    match ← expectWord viewWord text with
    | .error e => return .error e
    | .ok body => return .ok ⟨replaced.isSome, options, body⟩

/-- The definition with a plain header. -/
def normalizeHeader (definition : Text) : Checked Text := do
  match ← readHeader (Text.trimStart definition) with
  | .ok header => return plainHeader ++ header.body
  | .error _ => return definition

/-! ## The same is read -/

section Reading

variable {α β : Type}

theorem ofOption_bind (x : Option α) (f : α → Option β) :
    Reader.ofOption (x >>= f) = Reader.ofOption x >>= fun a => Reader.ofOption (f a) := by
  cases x <;> rfl

theorem ofOption_orElse (x y : Option α) :
    Reader.ofOption (x <|> y) = (Reader.ofOption x <|> Reader.ofOption y) := by
  cases x <;> rfl

theorem liftM_some (a : α) : (liftM (some a : Checked α) : Reader α) = pure a := rfl

theorem run_ofOption (x : Option α) : (Reader.ofOption x).run = some x := rfl

variable {word text : Text}

theorem splitAt_byteLength (front behind : Text) :
    splitAt (front ++ behind) (byteLength front) = some (front, behind) := by
  have hle : front.length ≤ (front ++ behind).length := by simp
  have hfront := slice_byteOffset (Nat.zero_le front.length) hle
  have hbehind := sliceFrom_byteOffset hle
  rw [← byteLength_left, byteOffset_zero, Text.slice, List.take_left] at hfront
  rw [← byteLength_left, List.drop_left] at hbehind
  rw [splitAt, hfront, hbehind]
  rfl

theorem spanAt_eq (p : Char → Bool) (text : Text) : spanAt p text = some (text.takeWhile p, text.dropWhile p) := by
  have h := splitAt_byteLength (text.takeWhile p) (text.dropWhile p)
  rwa [List.takeWhile_append_dropWhile] at h

theorem skip?_eq (word text : Text) : skip? word text = Reader.ofOption (View.skip? word text) := by
  rw [skip?, View.skip?]
  by_cases hs : Text.starts word text = true
  · have hword : byteOffset text 0 + byteLength word = byteOffset text (0 + word.length) := byteOffset_add_word hs
    rw [byteOffset_zero, Nat.zero_add, Nat.zero_add, byteOffset] at hword
    have hsplit := splitAt_byteLength (text.take word.length) (text.drop word.length)
    rw [List.take_append_drop] at hsplit
    rw [if_pos hs, if_pos hs, hword, hsplit]
    rfl
  · rw [if_neg hs, if_neg hs]
    rfl

theorem skipGap?_eq (text : Text) : skipGap? text = Reader.ofOption (View.skipGap? text) := by
  rw [skipGap?, View.skipGap?, spanAt_eq]
  split <;> rfl

theorem skipWord?_eq (word text : Text) : skipWord? word text = Reader.ofOption (View.skipWord? word text) := by
  rw [skipWord?, View.skipWord?, ← Option.bind_eq_bind, ofOption_bind, skip?_eq]
  simp only [skipGap?_eq]

theorem skipEquals?_eq (text : Text) : skipEquals? text = Reader.ofOption (View.skipEquals? text) := by
  rw [skipEquals?, View.skipEquals?, spanAt_eq]
  split
  · next rest hd =>
    have hsplit : splitAt ('=' :: rest) 1 = some (['='], rest) := splitAt_byteLength ['='] rest
    simp only [hd, liftM_some, pure_bind, List.head?_cons, if_true, hsplit, spanAt_eq]
    rfl
  · next hne =>
    have hhead : ¬ (text.dropWhile isGap).head? = some '=' := fun h => by
      obtain ⟨rest, hd⟩ := List.head?_eq_some_iff.mp h
      exact hne rest hd
    simp only [liftM_some, pure_bind, if_neg hhead]
    rfl

theorem takeSome?_eq (p : Char → Bool) (text : Text) :
    takeSome? p text = Reader.ofOption (View.takeSome? p text) := by
  rw [takeSome?, View.takeSome?, spanAt_eq]
  split <;> rfl

theorem readAlgorithm?_eq (text : Text) : readAlgorithm? text = Reader.ofOption (View.readAlgorithm? text) := by
  simp only [readAlgorithm?, View.readAlgorithm?, ofOption_bind, skip?_eq, skipEquals?_eq, takeSome?_eq]
  rfl

theorem readDefiner?_eq (text : Text) : readDefiner? text = Reader.ofOption (View.readDefiner? text) := by
  simp only [readDefiner?, View.readDefiner?, ofOption_bind, skip?_eq, skipEquals?_eq, takeSome?_eq]
  rfl

theorem readSecurity?_eq (text : Text) : readSecurity? text = Reader.ofOption (View.readSecurity? text) := by
  simp only [readSecurity?, View.readSecurity?, ofOption_bind, skipWord?_eq, skip?_eq]
  congr 1
  funext text
  congr 1
  funext text
  cases View.skip? definerWord text with
  | none =>
    simp only [ofOption_bind]
    rfl
  | some rest => rfl

theorem readOption?_eq (text : Text) : readOption? text = Reader.ofOption (View.readOption? text) := by
  simp only [readOption?, View.readOption?, ofOption_bind, ofOption_orElse, readAlgorithm?_eq, readDefiner?_eq,
    readSecurity?_eq, skipGap?_eq]
  rfl

/-- The options are the same. -/
theorem readOptions_eq (text : Text) : readOptions text = some (View.readOptions text) := by
  fun_induction View.readOptions text with
  | case1 text h =>
    rw [readOptions, readOption?_eq, run_ofOption, h]
    rfl
  | case2 text option rest h hlt options behind hr ih =>
    rw [readOptions, readOption?_eq, run_ofOption, h]
    simp only [Option.bind_eq_bind, Option.bind_some, if_pos hlt, ih, hr]
    rfl
  | case3 text option rest h hlt =>
    rw [readOptions, readOption?_eq, run_ofOption, h]
    simp only [Option.bind_eq_bind, Option.bind_some, if_neg hlt]
    rfl

theorem expectWord_eq (word text : Text) : expectWord word text = some (View.expectWord word text) := by
  rw [expectWord, View.expectWord, skip?_eq, run_ofOption]
  cases View.skip? word text with
  | none => rfl
  | some rest =>
    simp only [Option.bind_eq_bind, Option.bind_some, skipGap?_eq, run_ofOption]
    cases View.skipGap? rest <;> rfl

theorem skipOrReplace?_eq (text : Text) : skipOrReplace? text = Reader.ofOption (View.skipOrReplace? text) := by
  rw [skipOrReplace?, View.skipOrReplace?, ← Option.bind_eq_bind, ofOption_bind, skipWord?_eq]
  simp only [skipWord?_eq]

/-- The header is the same. -/
theorem readHeader_eq (text : Text) : readHeader text = some (Header.read text) := by
  rw [readHeader, Header.read, expectWord_eq]
  cases View.expectWord createWord text with
  | error e => rfl
  | ok text =>
    simp only [Option.bind_eq_bind, Option.bind_some, skipOrReplace?_eq, run_ofOption, readOptions_eq, expectWord_eq]
    show _ = some ((View.expectWord viewWord _).bind _)
    cases View.expectWord viewWord (View.readOptions ((View.skipOrReplace? text).getD text)).2 <;> rfl

theorem normalizeHeader_eq (definition : Text) :
    normalizeHeader definition = some (View.normalizeHeader definition) := by
  rw [normalizeHeader, View.normalizeHeader, readHeader_eq]
  cases Header.read (Text.trimStart definition) <;> rfl

end Reading

end SqlDialect.Bytes
