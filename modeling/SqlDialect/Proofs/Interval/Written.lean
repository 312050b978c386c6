import SqlDialect.Proofs.WellFormed
import SqlDialect.Proofs.Interval.Free

/-!
# The written form of an expression

An expression is written behind what is kept of the text, in front of the rest of it. What is written holds a keyword
only where the base or an amount holds one. A quote `'` in front that has no partner finds one in what is written, and
what was a literal there is read as code; but that code holds no keyword either.

* `AmountPieces.reads_modifier`: how a modifier is read, whatever stands behind it.
* `shifted_pieces`: how the modifiers are read behind a quote without a partner.
* `written_closed`, `written_open`: how the base is read together with the modifiers behind it.
-/

namespace SqlDialect.Interval

/-! ## A modifier -/

/-- A literal, or code that is neither a quote nor part of a name. -/
def isGlue : Piece → Bool
  | .code c => !isQuote c && !isName c
  | .region kind _ => kind = .literal

theorem free_of_isGlue {ps : List Piece} (h : ∀ p ∈ ps, isGlue p = true) : Free ps := by
  apply free_of_codes
  intro c hc
  have := h _ hc
  simp only [isGlue, Bool.and_eq_true, Bool.not_eq_true'] at this
  exact this.2

/-- A single dash is code. -/
theorem reads_dash {r : Text} (h : r.head? ≠ some '-') : Reads ['-'] r [.code '-'] := by
  have hnone : regionTail? '-' r = none := by
    rw [regionTail?_eq_none_iff, literalTail?_eq_none_iff, commentTail?_eq_none_iff]
    exact ⟨fun hq => absurd hq (by decide), by decide, fun e => absurd e (by decide), fun _ hr => absurd hr h⟩
  exact pieces_code hnone

/-- A single name or number is code. -/
theorem reads_token {a : Text} (h : isToken a = true) (r : Text) : Reads a r (a.map .code) := by
  induction a with
  | nil => exact Reads.nil r
  | cons c a ih =>
    simp only [isToken, List.all_cons, Bool.and_eq_true, Bool.or_eq_true, decide_eq_true_eq] at h
    have hnone : regionTail? c (a ++ r) = none := by
      rcases h.1 with hc | rfl
      · exact regionTail?_of_isWord hc _
      · exact regionTail?_of_ne (by decide) (by decide) (by decide) (by decide) _
    have ih' := ih h.2
    unfold Reads at ih' ⊢
    rw [List.cons_append, pieces_code hnone, ih']
    rfl

theorem isToken_of_isNumeral {a : Text} (h : isNumeral a = true) : isToken a = true := by
  rw [isNumeral, List.all_eq_true] at h
  rw [isToken, List.all_eq_true]
  intro c hc
  have := h c hc
  simp only [Bool.or_eq_true, decide_eq_true_eq] at this ⊢
  exact this.imp_left fun hd => by simp [isWord, Char.isAlphanum, hd]

/-- The pieces of an amount that is written in front of a parenthesis. Its comments are among those of `cs`. -/
structure AmountPieces (cs : List Piece) (t : Term) (ps : List Piece) : Prop where
  reads : Reads t.amount [')'] ps
  nest : nest [] ps = some []
  comments : ∀ s, .region .comment s ∈ ps → .region .comment s ∈ cs
  ne : t.amount ≠ []

namespace AmountPieces

variable {cs ps : List Piece} {t : Term}

theorem not_quote (h : AmountPieces cs t ps) {q : Char} (hq : isQuote q = true) : .code q ∉ ps := by
  intro hm
  rw [isQuote_of_nest h.nest hm] at hq
  cases hq

/-- In front of a parenthesis it does not matter what follows behind that. -/
theorem parenthesis (h : AmountPieces cs t ps) (r : Text) : Reads t.amount (')' :: r) ps :=
  h.reads.delimited (Or.inr rfl) fun _ hq hm => absurd hm (h.not_quote hq)

theorem token (h : AmountPieces cs t ps) (ht : isToken t.amount = true) (r : Text) : Reads t.amount r ps := by
  rw [h.reads.unique (reads_token ht [')'])]
  exact reads_token ht r

theorem free_iff (h : AmountPieces cs t ps) : Free ps ↔ findKeyword keyword none t.amount = none := by
  rw [findKeyword_eq_firstIn, h.reads.firstIn_alone]
  · rfl
  · intro b x
    rw [Bool.eq_false_iff]
    exact fun hs => not_foreign_of_startsKeyword hs (foreign_of_isName rfl)

end AmountPieces

/-- An amount with something in front of it and something behind it. -/
theorem enclosed {a pre post : Text} {xs pa zs : List Piece} {r : Text} (hpre : Reads pre (a ++ (post ++ r)) xs)
    (ha : Reads a (post ++ r) pa) (hpost : Reads post r zs) : Reads (pre ++ a ++ post) r (xs ++ (pa ++ zs)) := by
  rw [← List.append_assoc]
  exact (hpre.append ha).append hpost

/-- What stands in front of the amount in the value of a term. -/
def Term.front (t : Term) : List Piece :=
  if isNumeral t.amount then .region .literal ['\'', t.sign.char, '\''] :: [' ', '|', '|', ' '].map .code
  else
    match t.sign, isToken t.amount with
    | .plus, true => []
    | .plus, false => [.code '(']
    | .minus, true => [.code '(', .code '-']
    | .minus, false => [.code '(', .code '-', .code '(']

/-- What stands behind the amount in the value of a term. -/
def Term.back (t : Term) : List Piece :=
  if isNumeral t.amount then []
  else
    match t.sign, isToken t.amount with
    | .plus, true => []
    | .plus, false => [.code ')']
    | .minus, true => [.code ')']
    | .minus, false => [.code ')', .code ')']

/-- The modifier of a term with the comma in front, where the amount is read as `ps`. -/
def Term.modifierPieces (t : Term) (ps : List Piece) : List Piece :=
  [',', ' '].map .code ++ (t.front ++ (ps ++ (t.back ++ ([' ', '|', '|', ' '].map .code ++
    [.region .literal ('\'' :: (' ' :: t.unit.plural ++ ['\'']))]))))

/-- The modifiers of several terms, where the amounts are read as `pss`. -/
def modifiersPieces : List Term → List (List Piece) → List Piece
  | t :: ts, ps :: pss => t.modifierPieces ps ++ modifiersPieces ts pss
  | _, _ => []

/-- Around the amount stand only brackets, signs and literals. -/
theorem Term.isGlue_around (t : Term) : ∀ p ∈ t.front ++ t.back, isGlue p = true := by
  unfold Term.front Term.back
  by_cases hnum : isNumeral t.amount = true
  · simp only [if_pos hnum, List.append_nil]
    cases t.sign <;> decide
  · simp only [if_neg hnum]
    cases t.sign <;> cases isToken t.amount <;> decide

theorem Term.getLast?_front (t : Term) : (textOf t.front).getLast?.any isWord = false := by
  unfold Term.front
  split
  · rfl
  · cases t.sign <;> cases isToken t.amount <;> rfl

theorem Term.head?_back (t : Term) : (textOf t.back).head?.any isWord = false := by
  unfold Term.back
  split
  · rfl
  · cases t.sign <;> cases isToken t.amount <;> rfl

section Amount

variable {cs pa : List Piece} {t : Term}

theorem AmountPieces.nest_value (h : AmountPieces cs t pa) :
    SqlDialect.nest [] (t.front ++ (pa ++ t.back)) = some [] := by
  unfold Term.front Term.back
  by_cases hnum : isNumeral t.amount = true
  · simp only [if_pos hnum]
    exact nest_balanced_append h.nest [] []
  · simp only [if_neg hnum]
    cases t.sign <;> cases isToken t.amount <;> exact nest_balanced_append h.nest _ _

/-- The value of a term is the amount with brackets, signs and literals around it. -/
theorem AmountPieces.reads_value (h : AmountPieces cs t pa) (r : Text) :
    Reads t.value (' ' :: r) (t.front ++ (pa ++ t.back)) := by
  have hplain : ∀ {x r : Text}, isPlain x = true → Reads x r (x.map .code) := fun hx => reads_of_isPlain hx _
  unfold Term.value Term.front Term.back
  by_cases hnum : isNumeral t.amount = true
  · simp only [if_pos hnum]
    have hsign : Reads ['\'', t.sign.char, '\''] ([' ', '|', '|', ' '] ++ (t.amount ++ ' ' :: r))
        [.region .literal ['\'', t.sign.char, '\'']] := by
      refine @reads_literal '\'' [t.sign.char] (by decide) ?_ _
      cases t.sign <;> decide
    have hpre := hsign.append (hplain (x := [' ', '|', '|', ' ']) rfl)
    have := @enclosed _ _ [] _ _ [] (' ' :: r) hpre (h.token (isToken_of_isNumeral hnum) _) (Reads.nil _)
    rwa [List.append_nil] at this
  · simp only [if_neg hnum]
    cases t.sign with
    | plus =>
      cases htok : isToken t.amount with
      | true =>
        rw [List.nil_append, List.append_nil]
        exact h.token htok _
      | false => exact enclosed (hplain rfl) (h.parenthesis _) (hplain rfl)
    | minus =>
      cases htok : isToken t.amount with
      | true =>
        refine enclosed ?_ (h.parenthesis _) (hplain rfl)
        -- a name or number does not start with a second dash
        have hdash : Reads ['-'] (t.amount ++ ([')'] ++ ' ' :: r)) [.code '-'] := by
          apply reads_dash
          obtain ⟨c, a, ha⟩ := List.exists_cons_of_ne_nil h.ne
          rw [ha] at htok ⊢
          intro hc
          rw [Option.some.inj hc] at htok
          cases htok
        exact (hplain (x := ['(']) rfl).append hdash
      | false => exact enclosed (hplain rfl) (h.parenthesis _) (hplain rfl)

end Amount

theorem any_or_eq_false {o o' : Option Char} (h : o.any isWord = false) (h' : o'.any isWord = false) :
    (o.or o').any isWord = false := by
  cases o with
  | none => exact h'
  | some c => exact h

theorem wordBreak_of_last {a : Text} (h : a.getLast?.any isWord = false) (b : Text) : WordBreak a b := by
  left
  intro c hc
  rw [hc] at h
  exact h

theorem wordBreak_of_head {b : Text} (h : b.head?.any isWord = false) (a : Text) : WordBreak a b := by
  right
  intro c hc
  rw [hc] at h
  exact h

/-- What stands in front of the amount in a modifier with its comma. -/
def Term.before (t : Term) : List Piece := [',', ' '].map .code ++ t.front

/-- What stands behind the amount in a modifier. -/
def Term.behind (t : Term) : List Piece :=
  t.back ++ ([' ', '|', '|', ' '].map .code ++ [.region .literal ('\'' :: (' ' :: t.unit.plural ++ ['\'']))])

theorem Term.modifierPieces_eq (t : Term) (ps : List Piece) : t.modifierPieces ps = t.before ++ (ps ++ t.behind) := by
  simp only [Term.modifierPieces, Term.before, Term.behind, List.append_assoc]

theorem Term.isGlue_before (t : Term) : ∀ p ∈ t.before, isGlue p = true := fun p hp => by
  rcases List.mem_append.mp hp with hp | hp
  · exact (by decide : ∀ p ∈ [',', ' '].map Piece.code, isGlue p = true) p hp
  · exact t.isGlue_around p (List.mem_append_left _ hp)

theorem Term.isGlue_behind (t : Term) : ∀ p ∈ t.behind, isGlue p = true := fun p hp => by
  rcases List.mem_append.mp hp with hp | hp
  · exact t.isGlue_around p (List.mem_append_right _ hp)
  rcases List.mem_append.mp hp with hp | hp
  · exact (by decide : ∀ p ∈ [' ', '|', '|', ' '].map Piece.code, isGlue p = true) p hp
  · rw [List.mem_singleton.mp hp]
    rfl

theorem Term.getLast?_before (t : Term) : (textOf t.before).getLast?.any isWord = false := by
  rw [Term.before, textOf_append, List.getLast?_append]
  exact any_or_eq_false t.getLast?_front rfl

theorem Term.head?_behind (t : Term) : (textOf t.behind).head?.any isWord = false := by
  rw [Term.behind, textOf_append, List.head?_append]
  exact any_or_eq_false t.head?_back rfl

section Modifier

variable {cs pa : List Piece} {t : Term}

theorem Term.mem_modifierPieces {p : Piece} (hp : p ∈ t.modifierPieces pa) : isGlue p = true ∨ p ∈ pa := by
  rw [t.modifierPieces_eq] at hp
  rcases List.mem_append.mp hp with hp | hp
  · exact Or.inl (t.isGlue_before p hp)
  · exact (List.mem_append.mp hp).elim Or.inr fun hp => Or.inl (t.isGlue_behind p hp)

theorem Term.head?_modifierPieces : (textOf (t.modifierPieces pa)).head? = some ',' := rfl

theorem Term.getLast?_modifierPieces : (textOf (t.modifierPieces pa)).getLast? = some '\'' := by
  simp [t.modifierPieces_eq, Term.behind, Piece.text, List.getLast?_cons]

/-- A modifier holds a keyword only where its amount does. -/
theorem Term.free_modifierPieces : Free (t.modifierPieces pa) ↔ Free pa := by
  rw [t.modifierPieces_eq, free_append (wordBreak_of_last t.getLast?_before _),
    free_append (wordBreak_of_head t.head?_behind _)]
  exact ⟨fun h => h.2.1, fun h => ⟨free_of_isGlue t.isGlue_before, h, free_of_isGlue t.isGlue_behind⟩⟩

theorem AmountPieces.nest_modifier (h : AmountPieces cs t pa) :
    SqlDialect.nest [] (t.modifierPieces pa) = some [] := by
  have hsplit : t.modifierPieces pa = [',', ' '].map Piece.code ++ ((t.front ++ (pa ++ t.back)) ++
      ([' ', '|', '|', ' '].map Piece.code ++ [.region .literal ('\'' :: (' ' :: t.unit.plural ++ ['\'']))])) := by
    simp only [Term.modifierPieces, List.append_assoc]
  rw [hsplit]
  exact nest_balanced_append h.nest_value [] _

/-- **A modifier.** With the comma in front it is read in one way, whatever stands behind it. -/
theorem AmountPieces.reads_modifier (h : AmountPieces cs t pa) (r : Text) :
    Reads ([',', ' '] ++ t.modifier) r (t.modifierPieces pa) := by
  have hunit : '\'' ∉ ' ' :: t.unit.plural := by
    cases t.unit <;> rw [TimeUnit.plural, TimeUnit.name] <;> decide
  have hbar : ∀ r, Reads [' ', '|', '|', ' '] r ([' ', '|', '|', ' '].map .code) := reads_of_isPlain rfl
  have hcomma : ∀ r, Reads [',', ' '] r ([',', ' '].map .code) := reads_of_isPlain rfl
  have hpieces : t.modifierPieces pa = [',', ' '].map Piece.code ++ (t.front ++ (pa ++ t.back)) ++
      ([' ', '|', '|', ' '].map Piece.code ++ [.region .literal ('\'' :: (' ' :: t.unit.plural ++ ['\'']))]) := by
    simp only [Term.modifierPieces, List.append_assoc]
  have htext : [',', ' '] ++ t.modifier =
      [',', ' '] ++ t.value ++ ([' ', '|', '|', ' '] ++ '\'' :: (' ' :: t.unit.plural ++ ['\''])) := by
    simp [Term.modifier]
  rw [hpieces, htext]
  exact ((hcomma _).append (h.reads_value _)).append ((hbar _).append (reads_literal (by decide) hunit r))

end Modifier

/-- The modifiers of several terms, where the amounts are read as `pss`. Their comments are among those of `cs`. -/
structure ModifiersRead (cs : List Piece) (ts : List Term) (pss : List (List Piece)) : Prop where
  amounts : pss.map textOf = ts.map (·.amount)
  reads : ∀ r, Reads (ts.flatMap fun t => [',', ' '] ++ t.modifier) r (modifiersPieces ts pss)
  nest : nest [] (modifiersPieces ts pss) = some []
  comments : ∀ s, .region .comment s ∈ modifiersPieces ts pss → .region .comment s ∈ cs
  not_quote : .code '\'' ∉ modifiersPieces ts pss
  free_iff : Free (modifiersPieces ts pss) ↔ ∀ t ∈ ts, findKeyword keyword none t.amount = none
  head : (textOf (modifiersPieces ts pss)).head?.any isWord = false

theorem ModifiersRead.nil {cs : List Piece} : ModifiersRead cs [] [] where
  amounts := rfl
  reads r := Reads.nil r
  nest := rfl
  comments s hs := by cases hs
  not_quote hm := by cases hm
  free_iff := by simp [modifiersPieces, free_nil]
  head := rfl

theorem ModifiersRead.cons {cs pa : List Piece} {t : Term} {ts : List Term} {pss : List (List Piece)}
    (ht : AmountPieces cs t pa) (h : ModifiersRead cs ts pss) : ModifiersRead cs (t :: ts) (pa :: pss) where
  amounts := by rw [List.map_cons, List.map_cons, ht.reads.textOf_eq, h.amounts]
  reads r := by
    rw [List.flatMap_cons]
    exact (ht.reads_modifier _).append (h.reads r)
  nest := by rw [modifiersPieces, nest_balanced_append ht.nest_modifier, h.nest]
  comments s hs := by
    rcases List.mem_append.mp hs with hs | hs
    · rcases Term.mem_modifierPieces hs with hg | hg
      · cases hg
      · exact ht.comments s hg
    · exact h.comments s hs
  not_quote hm := by
    rcases List.mem_append.mp hm with hm | hm
    · rcases Term.mem_modifierPieces hm with hg | hg
      · cases hg
      · exact ht.not_quote (by decide) hg
    · exact h.not_quote hm
  free_iff := by
    have hb : (textOf (t.modifierPieces pa)).getLast?.any isWord = false := by
      rw [Term.getLast?_modifierPieces]
      rfl
    rw [modifiersPieces, free_append (wordBreak_of_last hb _), Term.free_modifierPieces, ht.free_iff, h.free_iff,
      List.forall_mem_cons]
  head := by
    rw [modifiersPieces, textOf_append, List.head?_append, Term.head?_modifierPieces]
    rfl

/-- **The modifiers of several terms.** -/
theorem exists_modifiersRead {cs : List Piece} {ts : List Term} (h : ∀ t ∈ ts, ∃ pa, AmountPieces cs t pa) :
    ∃ pss, ModifiersRead cs ts pss := by
  induction ts with
  | nil => exact ⟨[], .nil⟩
  | cons t ts ih =>
    obtain ⟨pa, hpa⟩ := h t List.mem_cons_self
    obtain ⟨pss, hpss⟩ := ih fun t ht => h t (List.mem_cons_of_mem _ ht)
    exact ⟨pa :: pss, hpss.cons hpa⟩

/-! ## Behind a quote without a partner -/

theorem reads_quote {r : Text} (h : '\'' ∉ r) : Reads ['\''] r [.code '\''] := by
  have hnone : regionTail? '\'' r = none := by
    rw [regionTail?_eq_none_iff, literalTail?_eq_none_iff, commentTail?_eq_none_iff]
    exact ⟨fun _ => h, by decide, fun e => absurd e (by decide), fun e => absurd e (by decide)⟩
  exact pieces_code hnone

/-- A literal that starts in front of a value takes in the value, but for the sign of a numeral. -/
theorem shifted_value {t : Term} (ht : '\'' ∉ t.amount) {m : Text} (hm : '\'' ∉ m) (r : Text) :
    ∃ qs : List Piece, Reads ('\'' :: (m ++ (t.value ++ [' ', '|', '|', ' ', '\'']))) r qs ∧
      ∀ p ∈ qs, isGlue p = true := by
  by_cases hnum : isNumeral t.amount = true
  · -- the sign stands between two literals
    have hsign : '\'' ∉ [t.sign.char] ∧ Reads [t.sign.char] ('\'' :: ([' ', '|', '|', ' '] ++ t.amount ++
        [' ', '|', '|', ' '] ++ ['\'']) ++ r) [.code t.sign.char] ∧ isGlue (.code t.sign.char) = true := by
      cases t.sign with
      | plus => exact ⟨by decide, reads_of_isPlain rfl _, rfl⟩
      | minus => exact ⟨by decide, reads_dash (by simp), rfl⟩
    have hmid : '\'' ∉ [' ', '|', '|', ' '] ++ t.amount ++ [' ', '|', '|', ' '] := by simp [ht]
    have h := (reads_literal (by decide) hm _).append (hsign.2.1.append (reads_literal (by decide) hmid r))
    have he : '\'' :: (m ++ (t.value ++ [' ', '|', '|', ' ', '\''])) = '\'' :: (m ++ ['\'']) ++ ([t.sign.char] ++
        '\'' :: ([' ', '|', '|', ' '] ++ t.amount ++ [' ', '|', '|', ' '] ++ ['\''])) := by
      simp [Term.value, hnum]
    rw [← he] at h
    refine ⟨_, h, fun p hp => ?_⟩
    simp only [List.cons_append, List.nil_append, List.mem_cons, List.not_mem_nil, or_false] at hp
    rcases hp with rfl | rfl | rfl
    · rfl
    · exact hsign.2.2
    · rfl
  · have hvalue : '\'' ∉ t.value := by
      unfold Term.value
      rw [if_neg hnum]
      split <;> simp [ht]
    have hmid : '\'' ∉ m ++ (t.value ++ [' ', '|', '|', ' ']) := by simp [hm, hvalue]
    have h := reads_literal (by decide) hmid r
    have he : '\'' :: (m ++ (t.value ++ [' ', '|', '|', ' ', '\''])) =
        '\'' :: (m ++ (t.value ++ [' ', '|', '|', ' ']) ++ ['\'']) := by simp
    rw [← he] at h
    exact ⟨_, h, by simp [isGlue]⟩

theorem free_plural (unit : TimeUnit) :
    isPlain (' ' :: unit.plural) = true ∧ Free ((' ' :: unit.plural).map .code) := by
  have hfree : firstIn (startsKeyword keyword) none ((' ' :: unit.plural).map .code) = none := by
    cases unit <;> rw [TimeUnit.plural, TimeUnit.name, keyword] <;> decide
  exact ⟨by cases unit <;> rw [TimeUnit.plural, TimeUnit.name] <;> decide, hfree⟩

/-- A quote without a partner in front of the modifiers finds one there, and so do those behind. The last quote is left
without one. -/
theorem shifted_pieces {ts : List Term} (h : ∀ t ∈ ts, '\'' ∉ t.amount) {m r : Text} (hm : '\'' ∉ m)
    (hts : ts = [] → m = []) (hr : '\'' ∉ r) :
    ∃ qs : List Piece, Reads ('\'' :: (m ++ ts.flatMap fun t => [',', ' '] ++ t.modifier)) r qs ∧
      (∀ s, .region .comment s ∉ qs) ∧ Free qs := by
  induction ts generalizing m with
  | nil =>
    rw [hts rfl]
    refine ⟨[.code '\''], reads_quote hr, by simp, free_of_codes fun c hc => ?_⟩
    rw [Piece.code.inj (List.mem_singleton.mp hc)]
    rfl
  | cons t ts ih =>
    obtain ⟨hplain, hplural⟩ := free_plural t.unit
    have hcomma : '\'' ∉ m ++ [',', ' '] := by simp [hm]
    obtain ⟨rs, hrs, hcomments, hfree⟩ :=
      @ih (fun t ht => h t (List.mem_cons_of_mem _ ht)) [] (by simp) fun _ => rfl
    obtain ⟨qs, hqs, hglue⟩ := shifted_value (h t List.mem_cons_self) hcomma
      (' ' :: t.unit.plural ++ '\'' :: ([] ++ ts.flatMap fun t => [',', ' '] ++ t.modifier) ++ r)
    have hread := Reads.append hqs (Reads.append (reads_of_isPlain hplain _) hrs)
    refine ⟨qs ++ ((' ' :: t.unit.plural).map .code ++ rs), ?_, fun s hs => ?_, ?_⟩
    · have he : '\'' :: (m ++ (t :: ts).flatMap fun t => [',', ' '] ++ t.modifier) =
          '\'' :: (m ++ [',', ' '] ++ (t.value ++ [' ', '|', '|', ' ', '\''])) ++
            (' ' :: t.unit.plural ++ '\'' :: ([] ++ ts.flatMap fun t => [',', ' '] ++ t.modifier)) := by
        simp [Term.modifier]
      rw [he]
      exact hread
    · rcases List.mem_append.mp hs with hs | hs
      · cases hglue _ hs
      · rcases List.mem_append.mp hs with hs | hs
        · obtain ⟨c, -, hc⟩ := List.mem_map.mp hs
          cases hc
        · exact hcomments s hs
    · have hhead : (textOf rs).head?.any isWord = false := by
        rw [hrs.textOf_eq]
        rfl
      rw [free_append (wordBreak_of_head rfl _), free_append (wordBreak_of_head hhead _)]
      exact ⟨free_of_isGlue hglue, hplural, hfree⟩

/-! ## The base with the modifiers behind it -/

theorem free_left {xs ys : List Piece} (h : Free (xs ++ ys)) (hb : (textOf ys).head?.any isWord = false) : Free xs :=
  ((free_append (wordBreak_of_head hb _)).mp h).1

/-- What is written of some terms. -/
def writtenTerms (ts : List Term) : Text := ts.flatMap (fun t => [',', ' '] ++ t.modifier) ++ [')']

/-- The quotes of what is written are those of the amounts and `'`. -/
theorem quote_mem_modifiers {ts : List Term} {q : Char} (hq : isQuote q = true)
    (h : q ∈ ts.flatMap fun t => [',', ' '] ++ t.modifier) : q = '\'' ∨ ∃ t ∈ ts, q ∈ t.amount := by
  obtain ⟨t, ht, hm⟩ := List.mem_flatMap.mp h
  have hfixed : ∀ x : Text, (∀ c ∈ x, isQuote c = true → c = '\'') → q ∈ x → q = '\'' := fun x hx hm => hx q hm hq
  have hplural : ∀ c ∈ t.unit.plural, isQuote c = true → c = '\'' := by
    cases t.unit <;> rw [TimeUnit.plural, TimeUnit.name] <;> decide
  have henclosed : ∀ {x y : Text}, (∀ c ∈ x, isQuote c = true → c = '\'') → (∀ c ∈ y, isQuote c = true → c = '\'') →
      q ∈ x ++ t.amount ++ y → q = '\'' ∨ q ∈ t.amount := by
    intro x y hx hy hm
    rcases List.mem_append.mp hm with hm | hm
    · exact (List.mem_append.mp hm).imp_left (hfixed x hx)
    · exact Or.inl (hfixed y hy hm)
  have hvalue : q ∈ t.value → q = '\'' ∨ q ∈ t.amount := by
    intro hv
    unfold Term.value at hv
    split at hv
    · rcases List.mem_append.mp hv with hv | hv
      · left
        refine hfixed _ ?_ hv
        cases t.sign <;> decide
      · exact Or.inr hv
    · split at hv
      · exact Or.inr hv
      · exact henclosed (by decide) (by decide) hv
      · exact henclosed (by decide) (by decide) hv
      · exact henclosed (by decide) (by decide) hv
  simp only [Term.modifier, List.mem_append, or_assoc] at hm
  rcases hm with hm | hm | hm | hm | hm
  · exact Or.inl (hfixed _ (by decide) hm)
  · exact (hvalue hm).imp_right fun h => ⟨t, ht, h⟩
  · exact Or.inl (hfixed _ (by decide) hm)
  · exact Or.inl (hfixed _ hplural hm)
  · exact Or.inl (hfixed _ (by decide) hm)

theorem free_parenthesis : Free [.code ')'] := free_of_isGlue (by decide)

section Written

variable {bs cs : List Piece} {ts : List Term} {r : Text}

/-- The modifiers behind a text without an open quote. -/
theorem written_closed (h : Reads (textOf bs) [','] bs) (hts : ∀ t ∈ ts, ∃ pa, AmountPieces cs t pa) (hne : ts ≠ [])
    (hq : ∀ q, isQuote q = true → .code q ∈ bs → q ∉ r ∧ ∀ t ∈ ts, q ∉ t.amount) (hquote : .code '\'' ∉ bs) :
    ∃ ps : List Piece, Reads (textOf bs ++ writtenTerms ts) r ps ∧
      (∀ s, .region .comment s ∈ ps → .region .comment s ∈ bs ∨ .region .comment s ∈ cs) ∧ .code '\'' ∉ ps ∧
      (Free ps ↔ Free bs ∧ ∀ t ∈ ts, findKeyword keyword none t.amount = none) ∧
      ∀ st, nest st ps = (nest st bs).bind (nest · [.code ')']) := by
  obtain ⟨pss, hpss⟩ := exists_modifiersRead hts
  obtain ⟨t, ts', rfl⟩ := List.exists_cons_of_ne_nil hne
  have hfront : Reads (textOf bs) (writtenTerms (t :: ts') ++ r) bs := by
    apply h.context (by simp)
    · intro _ _ _ hc
      cases hc
    · right
      exact ⟨by simp [writtenTerms], by simp [writtenTerms], fun hb => absurd hb (by simp [writtenTerms]; decide)⟩
    · intro q hqq hm hmem
      obtain ⟨hr, hamounts⟩ := hq q hqq hm
      rw [writtenTerms, List.append_assoc, List.mem_append, List.mem_append] at hmem
      rcases hmem with hmem | hmem | hmem
      · rcases quote_mem_modifiers hqq hmem with rfl | ⟨t', ht', hm'⟩
        · exact hquote hm
        · exact hamounts t' ht' hm'
      · rw [List.mem_singleton.mp hmem] at hqq
        cases hqq
      · exact hr hmem
  have hclose : Reads [')'] r [.code ')'] := reads_of_isPlain rfl r
  refine ⟨bs ++ (modifiersPieces (t :: ts') pss ++ [.code ')']), hfront.append ((hpss.reads _).append hclose),
    fun s hs => ?_, ?_, ?_, fun st => ?_⟩
  · simp only [List.mem_append, List.mem_singleton, reduceCtorEq, or_false] at hs
    exact hs.imp_right (hpss.comments s)
  · simp [hquote, hpss.not_quote]
  · have hhead : (textOf (modifiersPieces (t :: ts') pss ++ [.code ')'])).head?.any isWord = false := by
      rw [textOf_append, List.head?_append]
      exact any_or_eq_false hpss.head rfl
    rw [free_append (wordBreak_of_head hhead _), free_append (wordBreak_of_head rfl _), hpss.free_iff]
    simp [free_parenthesis]
  · rw [nest_append]
    simp only [nest_balanced_append hpss.nest]

/-- The modifiers behind a text with a quote that has no partner in it. -/
theorem written_open (h : Reads (textOf bs) [','] bs) (hne : ts ≠ [])
    (hq : ∀ q, isQuote q = true → .code q ∈ bs → q ∉ r ∧ ∀ t ∈ ts, q ∉ t.amount) (hquote : .code '\'' ∈ bs) :
    ∃ ps : List Piece, Reads (textOf bs ++ writtenTerms ts) r ps ∧
      (∀ s, .region .comment s ∈ ps → .region .comment s ∈ bs) ∧ (Free bs → Free ps) := by
  obtain ⟨xs, ys, rfl⟩ := List.append_of_mem hquote
  have hfront := h.take
  have hys : '\'' ∉ textOf ys := fun hm => by
    have hread := h.drop
    rw [Reads, textOf_cons, Piece.text, List.singleton_append, List.cons_append] at hread
    have hlit := (regionTail?_eq_none_iff.mp (pieces_eq_code hread).2.1).1
    exact literalTail?_eq_none_iff.mp hlit rfl (List.mem_append_left _ hm)
  obtain ⟨hr, hamounts⟩ := hq '\'' rfl hquote
  obtain ⟨qs, hqs, hcomments, hfree⟩ := @shifted_pieces ts hamounts (textOf ys) ([')'] ++ r) hys
    (fun e => absurd e hne) (by simp [hr])
  have hfront' : Reads (textOf xs)
      ('\'' :: (textOf ys ++ ts.flatMap fun t => [',', ' '] ++ t.modifier) ++ [')'] ++ r) xs := by
    apply hfront.context (by simp)
    · intro _ _ _ hc
      cases hc
    · right
      exact ⟨by simp, by simp, fun hb => absurd hb (by simp; decide)⟩
    · intro q hqq hm hmem
      have hold := hfront.not_mem_of_quote hqq hm
      simp only [textOf_cons, Piece.text, List.mem_append, List.mem_singleton, not_or] at hold
      obtain ⟨hr', hamounts'⟩ := hq q hqq (List.mem_append_left _ hm)
      rw [List.append_assoc, List.cons_append, List.mem_cons, List.mem_append, List.mem_append, List.mem_append,
        List.mem_singleton, or_assoc] at hmem
      rcases hmem with hmem | hmem | hmem | hmem | hmem
      · exact hold.1.1 hmem
      · exact hold.1.2 hmem
      · rcases quote_mem_modifiers hqq hmem with rfl | ⟨t, ht, hm'⟩
        · exact hold.1.1 rfl
        · exact hamounts' t ht hm'
      · rw [hmem] at hqq
        cases hqq
      · exact hr' hmem
  have hclose : Reads [')'] r [.code ')'] := reads_of_isPlain rfl r
  refine ⟨xs ++ (qs ++ [.code ')']), ?_, fun s hs => ?_, fun hf => ?_⟩
  · have hread := hfront'.append (hqs.append hclose)
    have he : textOf (xs ++ .code '\'' :: ys) ++ writtenTerms ts = textOf xs ++
        ('\'' :: (textOf ys ++ ts.flatMap fun t => [',', ' '] ++ t.modifier) ++ [')']) := by
      simp [writtenTerms, Piece.text]
    rw [he]
    exact hread
  · simp only [List.mem_append, List.mem_singleton, reduceCtorEq, or_false] at hs
    rcases hs with hs | hs
    · exact List.mem_append_left _ hs
    · exact absurd hs (hcomments s)
  · have hhead : (textOf (qs ++ [.code ')'])).head?.any isWord = false := by
      rw [textOf_append, hqs.textOf_eq]
      rfl
    rw [free_append (wordBreak_of_head hhead _), free_append (wordBreak_of_head rfl _)]
    exact ⟨free_left hf rfl, hfree, free_parenthesis⟩

end Written

end SqlDialect.Interval
