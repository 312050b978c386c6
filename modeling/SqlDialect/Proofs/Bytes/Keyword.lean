import SqlDialect.Proofs.Bytes.Scan

/-!
# Keywords by byte offsets

A keyword is compared byte by byte. No character begins like another one, so the bytes of a text start with those of a
word exactly if the text starts with the word.

* `window_iff`: comparing bytes compares characters.
* `keywordAt_within`: no keyword starts within a character.
* `keywordAt_eq`, `findKeyword_eq`: keywords are met where their counterparts meet them.
-/

namespace SqlDialect.Bytes

open Text

/-! ## Comparing bytes -/

theorem toLower_of_wide {c : Char} (h : Wide c) : c.toLower = c := by
  refine Char.ext (UInt32.toNat_inj.mp ?_)
  show c.toLower.toNat = c.toNat
  have h' : 0x80 ≤ c.toNat := h
  rw [toNat_toLower, if_neg (by omega)]

theorem wide_toLower (c : Char) : Wide c.toLower ↔ Wide c := by
  simp only [Wide, toNat_toLower]
  split <;> omega

/-- Letter case is a matter of single bytes. -/
theorem lower_bytes (text : Text) : Text.lower (bytes text) = bytes (Text.lower text) := by
  induction text with
  | nil => rfl
  | cons c text ih =>
    have hchar : (charBytes c).map Char.toLower = charBytes c.toLower := by
      by_cases hc : Wide c
      · rw [toLower_of_wide hc, List.map_congr_left fun b hb => toLower_of_wide (wide_of_mem_charBytes hc b hb),
          List.map_id']
      · rw [charBytes_of_not_wide hc, charBytes_of_not_wide (by rwa [wide_toLower]), List.map_singleton]
    rw [Text.lower] at ih ⊢
    rw [bytes_cons, List.map_append, ih, hchar]
    rfl

/-- A text whose bytes start with those of another starts with the other. -/
theorem prefix_of_bytes {a b : Text} (h : bytes a <+: bytes b) : a <+: b := by
  have hbytes : ∀ t : Text, bytes t = (t.flatMap String.utf8EncodeChar).map Char.ofUInt8 := fun t => by
    rw [List.map_flatMap]
    rfl
  have hlist : a.flatMap String.utf8EncodeChar <+: b.flatMap String.utf8EncodeChar := by
    rw [hbytes, hbytes, List.prefix_iff_eq_take, List.length_map, ← List.map_take,
      List.map_inj_right fun _ _ => ofUInt8_inj] at h
    exact List.prefix_iff_eq_take.mpr h
  clear h
  induction a generalizing b with
  | nil => exact List.nil_prefix
  | cons c a ih =>
    obtain ⟨s, hs⟩ := hlist
    cases b with
    | nil =>
      rw [List.flatMap_nil, List.append_eq_nil_iff, List.flatMap_cons, List.append_eq_nil_iff] at hs
      exact absurd hs.1.1 String.utf8EncodeChar_ne_nil
    | cons d b =>
      rw [List.flatMap_cons, List.flatMap_cons, List.append_assoc] at hs
      -- the first character is decoded from either side
      have hcd : c = d := by
        have harray := congrArg List.toByteArray hs
        simp only [List.toByteArray_append] at harray
        have hdecode := congrArg (fun bs => ByteArray.utf8DecodeChar? bs 0) harray
        simp only [ByteArray.utf8DecodeChar?_utf8EncodeChar_append] at hdecode
        exact Option.some.inj hdecode
      subst hcd
      exact List.cons_prefix_cons.mpr ⟨rfl, ih ⟨s, List.append_cancel_left hs⟩⟩

theorem byteLength_lower (text : Text) : byteLength (Text.lower text) = byteLength text := by
  rw [← length_bytes, ← lower_bytes, Text.lower, List.length_map, length_bytes]

/-- The bytes that a text starts with are those of the word, up to letter case, exactly if the text starts with it. -/
theorem window_iff {word t : Text} :
    (byteLength word ≤ byteLength t ∧ Text.same ((bytes t).take (byteLength word)) (bytes word) = true) ↔
      Text.starts word t = true := by
  have htake : ∀ n, Text.lower ((bytes t).take n) = (bytes (Text.lower t)).take n := fun n => by
    rw [← lower_bytes, Text.lower, Text.lower, List.map_take]
  rw [starts_iff, Text.same, beq_iff_eq, lower_bytes, htake]
  constructor
  · rintro ⟨-, h⟩
    have hp : bytes (Text.lower word) <+: bytes (Text.lower t) := by
      rw [← h]
      exact List.take_prefix _ _
    obtain ⟨s, hs⟩ := prefix_of_bytes hp
    obtain ⟨v, u, rfl, hv, -⟩ := List.map_eq_append_iff.mp hs.symm
    exact ⟨v, u, rfl, hv⟩
  · rintro ⟨v, u, rfl, hv⟩
    have hlen : byteLength word = byteLength v := by rw [← byteLength_lower, ← hv, byteLength_lower]
    have hbytes : bytes (Text.lower (v ++ u)) = bytes (Text.lower v) ++ bytes (Text.lower u) := by
      rw [Text.lower, List.map_append, bytes_append]
      rfl
    refine ⟨by rw [hlen, byteLength_append]; omega, ?_⟩
    rw [hbytes, hlen, ← byteLength_lower v, ← length_bytes, List.take_left, hv]

/-! ## A keyword at an offset -/

/-- The byte in front of an offset, if there is one. -/
def byteBefore (text : Text) (i : Nat) : Checked (Option Char) :=
  if 0 < i then do
    let before ← byte? text (← minus i 1)
    return some before
  else return none

/-- Does a word that ends in front of an offset go on there? -/
def joinsWord (text : Text) (i : Nat) (word : Text) : Checked Bool :=
  if (bytes word).head?.any isWord then do
    let before ← byteBefore text i
    return before.any isWord
  else return false

/-- Does the word stand at an offset, in any letter case and not within a longer word? -/
def keywordAt (text : Text) (i : Nat) (word : Text) : Checked Bool :=
  let window := ((bytes text).drop i).take (byteLength word)
  if byteLength text < i + byteLength word ∨ Text.same window (bytes word) = false then return false
  else do
    let joined ← joinsWord text i word
    return !joined && !((bytes word).getLast?.any isWord && (byte? text (i + byteLength word)).any isWord)

variable {text rest : Text} {c : Char} {i j : Nat}

/-- There is room for a word where it stands. -/
theorem keywordAt_le {word : Text} (h : keywordAt text i word = some true) : i + byteLength word ≤ byteLength text := by
  unfold keywordAt at h
  simp only at h
  split at h
  · cases h
  · next hno => exact Nat.le_of_not_lt fun hlt => hno (Or.inl hlt)

/-- The byte in front of a position. -/
theorem byte?_before {p : Char} (hp : (text.take i).getLast? = some p) (hi : i ≤ text.length) :
    0 < byteOffset text i ∧ ∃ b, byte? text (byteOffset text i - 1) = some b ∧ (¬ Wide p → b = p) ∧
      (Wide p → Wide b) := by
  cases i with
  | zero => cases hp
  | succ i =>
    have hdrop := List.drop_eq_getElem_cons hi
    have hlast : text[i] = p := by
      rw [List.take_succ_eq_append_getElem hi, List.getLast?_append] at hp
      simpa using hp
    rw [hlast] at hdrop
    have hpos := Char.utf8Size_pos p
    rw [byteOffset_succ hdrop]
    refine ⟨by omega, ?_⟩
    by_cases hw : Wide p
    · obtain ⟨b, hb, hwb⟩ := byte?_wide hdrop hw (Nat.sub_lt hpos Nat.one_pos)
      refine ⟨b, ?_, fun h => absurd hw h, fun _ => hwb⟩
      rw [← hb]
      congr 1
      omega
    · refine ⟨p, ?_, fun _ => rfl, fun h => absurd h hw⟩
      rw [utf8Size_of_not_wide hw, Nat.add_sub_cancel]
      exact byte?_byteOffset hdrop hw

/-- Asking the byte in front of a position for what is the same for all that is beyond ASCII. -/
theorem byteBefore_map {β : Type} {f : Char → β} {v : β} (hf : ∀ c, Wide c → f c = v) (hi : i ≤ text.length) :
    ∃ b, byteBefore text (byteOffset text i) = some b ∧ b.map f = (text.take i).getLast?.map f := by
  cases hl : (text.take i).getLast? with
  | none =>
    have hzero : byteOffset text i = 0 := by
      rw [byteOffset, List.getLast?_eq_none_iff.mp hl]
      rfl
    exact ⟨none, by rw [hzero]; rfl, rfl⟩
  | some p =>
    obtain ⟨hpos, b, hb, hascii, hwide⟩ := byte?_before hl hi
    refine ⟨some b, ?_, ?_⟩
    · rw [byteBefore, if_pos hpos, minus_of_le hpos]
      simp only [Option.bind_eq_bind, Option.bind_some, hb]
      rfl
    · by_cases hw : Wide p
      · rw [Option.map_some, Option.map_some, hf b (hwide hw), hf p hw]
      · rw [hascii hw]

/-- The same for a class. -/
theorem byteBefore_any {p : Char → Bool} {v : Bool} (hp : ∀ c, Wide c → p c = v) (hi : i ≤ text.length) :
    ∃ b, byteBefore text (byteOffset text i) = some b ∧ b.any p = (text.take i).getLast?.any p := by
  obtain ⟨b, hb, hmap⟩ := byteBefore_map hp hi
  refine ⟨b, hb, ?_⟩
  cases b <;> cases hl : (text.take i).getLast? <;> simp_all

/-- The offset behind a word. -/
theorem byteOffset_add_word {word : Text} (h : Text.starts word (text.drop i) = true) :
    byteOffset text i + byteLength word = byteOffset text (i + word.length) := by
  obtain ⟨v, u, hvu, hv⟩ := starts_iff.mp h
  rw [byteOffset_add, hvu, ← length_eq_of_lower_eq hv, List.take_left, ← byteLength_lower word, ← hv, byteLength_lower]

theorem any_head?_bytes (word : Text) : (bytes word).head?.any isWord = word.head?.any isWord := by
  cases word with
  | nil => rfl
  | cons c word =>
    have hmap := map_byte? (fun c hc => isWord_of_wide hc) (c :: word) 0
    rw [byteOffset_zero, byte?, ← List.head?_eq_getElem?, List.drop_zero] at hmap
    cases hb : (bytes (c :: word)).head? with
    | none => rw [hb] at hmap; cases hmap
    | some b =>
      rw [hb] at hmap
      simpa using hmap

theorem any_getLast?_bytes (word : Text) : (bytes word).getLast?.any isWord = word.getLast?.any isWord := by
  cases hl : word.getLast? with
  | none =>
    rw [List.getLast?_eq_none_iff.mp hl]
    rfl
  | some p =>
    have htake : (word.take word.length).getLast? = some p := by rw [List.take_length, hl]
    obtain ⟨-, b, hb, hascii, hwide⟩ := byte?_before htake (Nat.le_refl _)
    rw [byteOffset_of_le (Nat.le_refl _), byte?, ← length_bytes, ← List.getLast?_eq_getElem?] at hb
    rw [hb, Option.any_some, Option.any_some]
    by_cases hw : Wide p
    · rw [isWord_of_wide (hwide hw), isWord_of_wide hw]
    · rw [hascii hw]

/-- A keyword is met at a position. -/
theorem keywordAt_eq (word : Text) (hi : i ≤ text.length) :
    keywordAt text (byteOffset text i) word = some (startsKeyword word (text.take i).getLast? (text.drop i)) := by
  have hlen := byteLength_eq text i
  have hwindow : (byteLength text < byteOffset text i + byteLength word ∨
      Text.same (((bytes text).drop (byteOffset text i)).take (byteLength word)) (bytes word) = false) ↔
        Text.starts word (text.drop i) = false := by
    rw [← Bool.not_eq_true, ← Bool.not_eq_true, ← window_iff, drop_bytes]
    by_cases hle : byteLength word ≤ byteLength (text.drop i)
    · simp only [hle, true_and, or_iff_right_iff_imp]
      omega
    · simp only [hle, false_and, not_false_eq_true, iff_true]
      exact Or.inl (by omega)
  rw [keywordAt, startsKeyword]
  by_cases hs : Text.starts word (text.drop i) = true
  · have hno : ¬ (byteLength text < byteOffset text i + byteLength word ∨
        Text.same (((bytes text).drop (byteOffset text i)).take (byteLength word)) (bytes word) = false) := by
      rw [hwindow, hs]
      simp
    have hbefore : joinsWord text (byteOffset text i) word =
        some (word.head?.any isWord && (text.take i).getLast?.any isWord) := by
      obtain ⟨b, hb, hany⟩ := byteBefore_any (fun c hc => isWord_of_wide hc) hi
      rw [joinsWord, any_head?_bytes, hb]
      cases word.head?.any isWord with
      | false => rfl
      | true => rw [if_pos rfl, Bool.true_and, ← hany]; rfl
    -- what stands behind the keyword
    have hafter : (byte? text (byteOffset text i + byteLength word)).any isWord =
        ((text.drop i).drop word.length).head?.any isWord := by
      have hmap := map_byte? (fun c hc => isWord_of_wide hc) text (i + word.length)
      rw [byteOffset_add_word hs, List.drop_drop]
      cases hb : byte? text (byteOffset text (i + word.length)) <;> cases hh : (text.drop (i + word.length)).head? <;>
        simp_all
    simp only [if_neg hno, hbefore, Option.bind_eq_bind, Option.bind_some, hs, Bool.true_and, any_getLast?_bytes,
      hafter]
    rfl
  · rw [Bool.not_eq_true] at hs
    simp only [if_pos (hwindow.mpr hs), hs, Bool.false_and]
    rfl

/-- At a byte beyond ASCII no keyword stands that starts with a character of ASCII. -/
theorem keywordAt_wide {b d : Char} {word : Text} (hb : byte? text i = some b) (hw : Wide b) (hd : ¬ Wide d) :
    keywordAt text i (d :: word) = some false := by
  have hwindow : Text.same (((bytes text).drop i).take (byteLength (d :: word))) (bytes (d :: word)) = false := by
    have hget := hb
    rw [byte?, ← List.head?_drop] at hget
    obtain ⟨bs, hbs⟩ : ∃ bs, (bytes text).drop i = b :: bs := by
      cases hl : (bytes text).drop i with
      | nil => rw [hl] at hget; cases hget
      | cons x bs => rw [hl] at hget; exact ⟨bs, by rw [Option.some.inj hget]⟩
    have hlen : byteLength (d :: word) = byteLength word + 1 := by
      rw [byteLength, utf8Size_of_not_wide hd, Nat.add_comm]
    rw [hbs, hlen, List.take_succ_cons, bytes_cons, charBytes_of_not_wide hd, Text.same, beq_eq_false_iff_ne]
    intro e
    have he := (List.cons.inj e).1
    rw [toLower_of_wide hw] at he
    exact ne_of_wide hw (by rwa [wide_toLower]) he
  rw [keywordAt]
  simp only [if_pos (Or.inr hwindow)]
  rfl

/-- Within a character no keyword stands. -/
theorem keywordAt_within {word : Text} (hword : word ≠ []) {k : Nat} (h : text.drop i = c :: rest) (hk : 0 < k)
    (hlt : k < c.utf8Size) : keywordAt text (byteOffset text i + k) word = some false := by
  obtain ⟨d, w, rfl⟩ := List.exists_cons_of_ne_nil hword
  obtain ⟨b, hb, hwb⟩ := byte?_wide h (wide_of_lt_utf8Size hk hlt) hlt
  have hwithin := byte?_byteOffset_add h hlt
  rw [hb] at hwithin
  have hne := head_charBytes_ne (d := d) hk hwithin.symm
  have hwindow : Text.same (((bytes text).drop (byteOffset text i + k)).take (byteLength (d :: w)))
      (bytes (d :: w)) = false := by
    rw [Text.same, beq_eq_false_iff_ne]
    intro he
    have hhead := congrArg List.head? he
    rw [byte?, ← List.head?_drop] at hb
    have hpos : byteLength (d :: w) ≠ 0 := Nat.ne_of_gt (byteLength_pos (by simp))
    rw [Text.lower, Text.lower, List.head?_map, List.head?_map, List.head?_take, if_neg hpos, hb, bytes_cons,
      List.head?_append] at hhead
    cases hd : (charBytes d).head? with
    | none =>
      have hlen := length_charBytes d
      rw [List.head?_eq_none_iff.mp hd] at hlen
      exact absurd hlen (Nat.ne_of_lt (Char.utf8Size_pos d))
    | some x =>
      rw [hd, Option.some_or, Option.map_some, Option.map_some, Option.some.injEq, toLower_of_wide hwb] at hhead
      -- letter case makes no difference beyond ASCII
      rw [toLower_of_wide ((wide_toLower x).mp (hhead ▸ hwb))] at hhead
      exact hne (by rw [hd, hhead])
  rw [keywordAt]
  simp only [if_pos (Or.inr hwindow)]
  rfl

/-- Whether a keyword stands at an offset can be said of every offset. -/
theorem exists_keywordAt (text : Text) (i : Nat) (word : Text) : ∃ found, keywordAt text i word = some found := by
  rw [keywordAt]
  split
  · exact ⟨false, rfl⟩
  · next hroom =>
    have hjoins : ∃ joined, joinsWord text i word = some joined := by
      rw [joinsWord]
      split
      · next hw =>
        have hlen : 0 < byteLength word := by
          rw [← length_bytes]
          cases hb : bytes word with
          | nil => rw [hb] at hw; cases hw
          | cons b bs => exact Nat.succ_pos _
        rw [byteBefore]
        split
        · next hi =>
          have hlt : i - 1 < byteLength text := by omega
          obtain ⟨b, hb⟩ := exists_byte?_of_lt hlt
          rw [minus_of_le hi]
          simp only [Option.bind_eq_bind, Option.bind_some, hb]
          exact ⟨_, rfl⟩
        · exact ⟨_, rfl⟩
      · exact ⟨false, rfl⟩
    obtain ⟨joined, hj⟩ := hjoins
    rw [hj]
    exact ⟨_, rfl⟩

/-! ## Searching for a keyword -/

/-- The first offset from the given one on where the word stands outside literals and comments. -/
def findKeyword (text word : Text) (i : Nat) : Checked (Option Nat) :=
  if i < byteLength text then
    match _h : skipOpaque text i with
    | some (some next) => findKeyword text word next
    | some none => do
      let found ← keywordAt text i word
      if found then return some i else findKeyword text word (i + 1)
    | none => none
  else return none
termination_by byteLength text - i
decreasing_by
  · have := skipOpaque_lt _h
    omega
  · omega

/-- The word is found behind the offset, with room for it. -/
theorem findKeyword_le {word : Text} (h : findKeyword text word i = some (some j)) :
    i ≤ j ∧ j + byteLength word ≤ byteLength text := by
  fun_induction findKeyword text word i with
  | case1 i hi next hn ih =>
    have hlt := skipOpaque_lt hn
    obtain ⟨hle, hroom⟩ := ih h
    exact ⟨by omega, hroom⟩
  | case2 i hi hn ih =>
    obtain ⟨found, hf, h⟩ := Option.bind_eq_some_iff.mp h
    split at h
    · next hfound =>
      cases h
      subst hfound
      exact ⟨Nat.le_refl _, keywordAt_le hf⟩
    · obtain ⟨hle, hroom⟩ := ih h
      exact ⟨by omega, hroom⟩
  | case3 | case4 => cases h

theorem findKeyword_of_byte {b : Char} (word : Text) (hb : byte? text i = some b) :
    findKeyword text word i = (do
      match ← skipOpaque text i with
      | some next => findKeyword text word next
      | none =>
        let found ← keywordAt text i word
        if found then return some i else findKeyword text word (i + 1)) := by
  rw [findKeyword, if_pos (lt_of_byte? hb)]
  rcases skipOpaque text i with _ | _ | next <;> rfl

/-- The word starts with a character of ASCII. -/
def StartsAscii (word : Text) : Prop := ∃ d w, word = d :: w ∧ ¬ Wide d

theorem startsAscii_of_head? {word : Text} (h : word.head?.any (fun d => decide (¬ Wide d)) = true) :
    StartsAscii word := by
  cases word with
  | nil => cases h
  | cons d w => exact ⟨d, w, rfl, by simpa using h⟩

theorem StartsAscii.ne_nil {word : Text} (h : StartsAscii word) : word ≠ [] := by
  obtain ⟨d, w, rfl, -⟩ := h
  exact List.cons_ne_nil d w

/-- A word that starts with a character of ASCII stands at a position. -/
theorem keywordAt_position {word : Text} (hword : StartsAscii word) (h : keywordAt text i word = some true) :
    ∃ k ≤ text.length, i = byteOffset text k ∧ startsKeyword word (text.take k).getLast? (text.drop k) = true := by
  obtain ⟨d, w, rfl, hd⟩ := hword
  have hroom := keywordAt_le h
  have hpos := Char.utf8Size_pos d
  rw [byteLength] at hroom
  have hi : i < byteLength text := by omega
  obtain ⟨b, hb⟩ := exists_byte?_of_lt hi
  by_cases hw : Wide b
  · rw [keywordAt_wide hb hw hd] at h
    cases h
  · obtain ⟨k, rest, rfl, hdrop⟩ := exists_position hb hw
    have hk := Nat.le_of_lt (lt_of_drop hdrop)
    rw [keywordAt_eq _ hk] at h
    exact ⟨k, hk, rfl, Option.some.inj h⟩

/-- The word stands at a position where it is found. -/
theorem findKeyword_position {word : Text} (hword : StartsAscii word) (h : findKeyword text word i = some (some j)) :
    ∃ k ≤ text.length, j = byteOffset text k ∧ startsKeyword word (text.take k).getLast? (text.drop k) = true := by
  fun_induction findKeyword text word i with
  | case1 i hi next hn ih => exact ih h
  | case2 i hi hn ih =>
    obtain ⟨found, hf, h⟩ := Option.bind_eq_some_iff.mp h
    split at h
    · next hfound =>
      cases h
      subst hfound
      exact keywordAt_position hword hf
    · exact ih h
  | case3 | case4 => cases h

/-- The search passes over the offsets within a character. -/
theorem findKeyword_within {word : Text} (hword : word ≠ []) {k : Nat} (h : text.drop i = c :: rest) (hk : 0 < k)
    (hlt : k < c.utf8Size) :
    findKeyword text word (byteOffset text i + k) = findKeyword text word (byteOffset text i + k + 1) := by
  obtain ⟨b, hb, hwb⟩ := byte?_wide h (wide_of_lt_utf8Size hk hlt) hlt
  rw [findKeyword_of_byte word hb, skipOpaque_wide hb hwb]
  simp only [Option.bind_eq_bind, Option.bind_some, keywordAt_within hword h hk hlt]
  rfl

/-- A keyword is found from a position on. -/
theorem findKeyword_eq {word : Text} (hword : word ≠ []) (hi : i ≤ text.length) :
    findKeyword text word (byteOffset text i) =
      some ((SqlDialect.findKeyword word (text.take i).getLast? (text.drop i)).map
        fun n => byteOffset text (i + n)) := by
  generalize hbefore : (text.take i).getLast? = before
  generalize h : text.drop i = rest
  fun_induction SqlDialect.findKeyword word before rest generalizing i with
  | case1 =>
    rw [findKeyword, if_neg (by rw [byteOffset_of_le (List.drop_eq_nil_iff.mp h)]; omega)]
    rfl
  | case2 before c rest kind n hr ih =>
    obtain ⟨hle, hdrop⟩ := next_of_regionTail? h hr
    obtain ⟨b, hb⟩ := exists_byte? h
    rw [findKeyword_of_byte word hb, skipOpaque_eq h, hr]
    simp only [Option.map_some, Option.bind_eq_bind, Option.bind_some]
    rw [ih hle (getLast?_take_succ h n) hdrop, map_byteOffset]
    rfl
  | case3 before c rest hr hs =>
    obtain ⟨b, hb⟩ := exists_byte? h
    rw [findKeyword_of_byte word hb, skipOpaque_eq h, hr]
    simp only [Option.map_none, Option.bind_eq_bind, Option.bind_some, keywordAt_eq word hi, hbefore, h, hs]
    rfl
  | case4 before c rest hr hs ih =>
    have hstep : findKeyword text word (byteOffset text i) = findKeyword text word (byteOffset text (i + 1)) := by
      obtain ⟨b, hb⟩ := exists_byte? h
      rw [findKeyword_of_byte word hb, skipOpaque_eq h, hr]
      simp only [Option.map_none, Option.bind_eq_bind, Option.bind_some, keywordAt_eq word hi, hbefore, h, hs]
      refine step_from h (Char.utf8Size_pos c) fun k hk hlt => ?_
      exact findKeyword_within hword h hk hlt
    rw [hstep, ih (lt_of_drop h) (getLast?_take_next h) (drop_succ h), map_byteOffset]

/-- The search for a keyword behind what is done. -/
theorem findKeyword_append {word : Text} (hword : StartsAscii word) (done rest : Text) :
    findKeyword (done ++ rest) word (byteLength done) =
      some ((SqlDialect.findKeyword word done.getLast? rest).map
        fun n => byteOffset (done ++ rest) (done.length + n)) := by
  rw [byteLength_left done rest, findKeyword_eq hword.ne_nil (by simp), List.take_left, List.drop_left]

/-- A keyword is found behind what is done. -/
theorem findKeyword_found {word done rest : Text} {n : Nat} (hword : StartsAscii word)
    (h : SqlDialect.findKeyword word done.getLast? rest = some n) :
    findKeyword (done ++ rest) word (byteLength done) = some (some (byteOffset (done ++ rest) (done.length + n))) := by
  rw [findKeyword_append hword, h]
  rfl

/-- There is room for a word where a text starts with it. -/
theorem add_length_le_of_starts {word : Text} (hword : word ≠ []) (h : Text.starts word (text.drop i) = true) :
    i + word.length ≤ text.length := by
  have hlen := starts_length h
  have hpos := List.length_pos_iff.mpr hword
  rw [List.length_drop] at hlen
  omega

/-- The word stands where it is found. -/
theorem starts_of_findKeyword {word rest : Text} {before : Option Char} {n : Nat} (done : Text)
    (h : SqlDialect.findKeyword word before rest = some n) :
    Text.starts word ((done ++ rest).drop (done.length + n)) = true := by
  obtain ⟨_, hs, -⟩ := findKeyword_startsKeyword h
  rw [drop_left_add]
  exact starts_of_startsKeyword hs

end SqlDialect.Bytes
