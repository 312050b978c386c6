import SqlDialect.Proofs.Interval.Bounded

/-!
# Whole operands

The base of an interval expression is meant to be the whole operand in front of the sign. It is found from a list of
words and separators. The words that a CASE is made of are in the list, but END is not, and neither are `&&`, `||` and
XOR, which bind looser than a sign. So the base is a whole operand unless one of these stands in front of the sign on
its level, with nothing behind it at which an operand starts.

* `wholeOperand_iff`: without stop words an operand is whole if neither END nor a loose operator stands in it.
* `endsOperand_of_standsBehind`: behind what stands in front of a base an operand starts.
* `locate_wholeOperand_iff`: which bases are whole operands.
-/

namespace SqlDialect.Interval

/-! ## Operands -/

/-- Does an operator stand at the start of `text` that binds looser than a sign, where `before` is in front? -/
def isLoose (before : Option Char) (text : Text) : Bool :=
  startsKeyword "xor".toList before text || Text.starts "&&".toList text || Text.starts "||".toList text

/-- The keyword CASE (`true`) or END (`false`) at the start of `text`, where `before` is in front. -/
def caseWord? (before : Option Char) (text : Text) : Option Bool :=
  if startsKeyword "case".toList before text then some true
  else if startsKeyword "end".toList before text then some false
  else none

/-- Does END or a loose operator stand at the start of `text`, where `before` is in front? -/
def breaksOperand (before : Option Char) (text : Text) : Bool :=
  startsKeyword "end".toList before text || isLoose before text

/-- The keywords CASE and END on the level of position `start` up to position `stop`. -/
def caseWords (T : Text) (start stop : Nat) : List Bool :=
  ((List.range stop).filter (OnLevel T start stop ·)).filterMap fun k => caseWord? (T.take k).getLast? (T.drop k)

/-- Is each END matched by a CASE in front of it, where `n` are open, and each CASE by an END? -/
def casesMatch (n : Nat) : List Bool → Bool
  | [] => n == 0
  | true :: ws => casesMatch (n + 1) ws
  | false :: ws => n != 0 && casesMatch (n - 1) ws

/-- The text from position `start` up to position `stop` is a whole operand: on its level every CASE has its END, and no
operator stands that binds looser than a sign. Words are read where they stand in the text. -/
structure WholeOperand (T : Text) (start stop : Nat) : Prop where
  cases : casesMatch 0 (caseWords T start stop) = true
  tight : ∀ k, OnLevel T start stop k → isLoose (T.take k).getLast? (T.drop k) = false

theorem casesMatch_zero_iff {ws : List Bool} (h : true ∉ ws) : casesMatch 0 ws = true ↔ ws = [] := by
  cases ws with
  | nil => simp [casesMatch]
  | cons w ws =>
    cases w with
    | true => simp at h
    | false => simp [casesMatch]

theorem mem_caseWords {T : Text} {start stop : Nat} {w : Bool} :
    w ∈ caseWords T start stop ↔
      ∃ k, OnLevel T start stop k ∧ caseWord? (T.take k).getLast? (T.drop k) = some w := by
  simp only [caseWords, List.mem_filterMap, List.mem_filter, List.mem_range, decide_eq_true_eq]
  constructor
  · rintro ⟨k, ⟨-, hk⟩, hw⟩
    exact ⟨k, hk, hw⟩
  · rintro ⟨k, hk, hw⟩
    exact ⟨k, ⟨hk.2.1, hk⟩, hw⟩

/-- Without a stop word in it, an operand is whole if neither END nor a loose operator stands in it. -/
theorem wholeOperand_iff {T : Text} {start stop : Nat} (h : ∀ k, OnLevel T start stop k → startsStopWord T k = false) :
    WholeOperand T start stop ↔
      ∀ k, OnLevel T start stop k → breaksOperand (T.take k).getLast? (T.drop k) = false := by
  have hword : ∀ k, OnLevel T start stop k → caseWord? (T.take k).getLast? (T.drop k) =
      if startsKeyword "end".toList (T.take k).getLast? (T.drop k) then some false else none := by
    intro k hk
    have hno := List.any_eq_false.mp (h k hk) "case".toList (by rw [stopWords]; decide)
    rw [caseWord?, if_neg hno]
  have htrue : true ∉ caseWords T start stop := fun hw => by
    obtain ⟨k, hk, hw⟩ := mem_caseWords.mp hw
    rw [hword k hk] at hw
    split at hw <;> cases hw
  constructor
  · intro hwhole k hk
    rw [breaksOperand, Bool.or_eq_false_iff]
    refine ⟨Bool.eq_false_iff.mpr fun hend => ?_, hwhole.tight k hk⟩
    have hin : false ∈ caseWords T start stop := mem_caseWords.mpr ⟨k, hk, by rw [hword k hk, if_pos hend]⟩
    rw [(casesMatch_zero_iff htrue).mp hwhole.cases] at hin
    cases hin
  · intro hnone
    have hboth := fun k hk => Bool.or_eq_false_iff.mp (hnone k hk)
    refine ⟨(casesMatch_zero_iff htrue).mpr (List.eq_nil_iff_forall_not_mem.mpr fun w hw => ?_),
      fun k hk => (hboth k hk).2⟩
    obtain ⟨k, hk, hw⟩ := mem_caseWords.mp hw
    rw [hword k hk, (hboth k hk).1] at hw
    cases hw

/-! ## What END and the loose operators start with -/

theorem head_of_starts {d c : Char} {w t : Text} (h : Text.starts (d :: w) (c :: t) = true) :
    c.toLower = d.toLower := by
  simp only [Text.starts, Bool.and_eq_true, beq_iff_eq] at h
  exact h.1.symm

theorem head_of_breaksOperand {before : Option Char} {c : Char} {t : Text}
    (h : breaksOperand before (c :: t) = true) : isSpace c = false ∧ (isWord c = true ∨ c = '&' ∨ c = '|') := by
  simp only [breaksOperand, isLoose, Bool.or_eq_true] at h
  have hletter : ∀ d : Char, isWord d.toLower = true → isSpace d.toLower = false → c.toLower = d.toLower →
      isSpace c = false ∧ (isWord c = true ∨ c = '&' ∨ c = '|') := by
    intro d hw hs hcd
    rw [← isSpace_toLower, ← isWord_toLower, hcd]
    exact ⟨hs, Or.inl hw⟩
  rcases h with h | (h | h) | h
  · exact hletter 'e' (by decide) (by decide) (head_of_starts (starts_of_startsKeyword h))
  · exact hletter 'x' (by decide) (by decide) (head_of_starts (starts_of_startsKeyword h))
  · obtain rfl := eq_of_toLower_eq (head_of_starts h) (by decide)
    exact ⟨by decide, Or.inr (Or.inl rfl)⟩
  · obtain rfl := eq_of_toLower_eq (head_of_starts h) (by decide)
    exact ⟨by decide, Or.inr (Or.inr rfl)⟩

theorem bounds_of_breaksOperand {before : Option Char} {c : Char} {t : Text}
    (h : breaksOperand before (c :: t) = true) : isSeparator c = false ∧ isOpener c = false := by
  obtain ⟨-, hw | rfl | rfl⟩ := head_of_breaksOperand h
  · constructor
    · exact Bool.eq_false_iff.mpr fun hs => by rw [isWord_of_isSeparator hs] at hw; cases hw
    · exact Bool.eq_false_iff.mpr fun ho => by rw [isWord_of_isOpener ho] at hw; cases hw
  · decide
  · decide

/-- Within a word neither END nor a loose operator starts. -/
theorem breaksOperand_in_word {b c : Char} (hb : isWord b = true) (hc : isWord c = true) (t : Text) :
    breaksOperand (some b) (c :: t) = false := by
  have hbar : ∀ d w, isWord d = false → Text.starts (d :: w) (c :: t) = false := by
    intro d w hd
    rw [Bool.eq_false_iff]
    intro h
    rw [eq_of_toLower_eq (head_of_starts h) hd, hd] at hc
    cases hc
  rw [breaksOperand, isLoose, startsKeyword_behind_word (by decide) (by decide) hb,
    startsKeyword_behind_word (by decide) (by decide) hb]
  simp only [Bool.false_or, Bool.or_eq_false_iff]
  exact ⟨hbar '&' _ (by decide), hbar '|' _ (by decide)⟩

/-- Where a stop word starts, neither END nor a loose operator does. -/
theorem breaksOperand_stopWord {before : Option Char} {w text : Text} (hw : w ∈ stopWords)
    (h : startsKeyword w before text = true) : breaksOperand before text = false := by
  obtain ⟨hne, hword⟩ := stopWords_word w hw
  have hlower := lower_takeWhile_of_startsKeyword hne hword h
  have hother : ∀ v, v ≠ [] → (∀ c ∈ v, isWord c = true) → (∀ w ∈ stopWords, Text.lower v ≠ Text.lower w) →
      startsKeyword v before text = false := by
    intro v hv hvw hno
    rw [Bool.eq_false_iff]
    intro hs
    exact hno w hw ((lower_takeWhile_of_startsKeyword hv hvw hs).symm.trans hlower)
  have hbar : ∀ d v, isWord d = false → Text.starts (d :: v) text = false := by
    intro d v hd
    rw [Bool.eq_false_iff]
    intro hs
    cases text with
    | nil => cases hs
    | cons c t =>
      obtain rfl := eq_of_toLower_eq (head_of_starts hs) hd
      rw [List.takeWhile_cons_of_neg (by simp [hd])] at hlower
      exact hne (List.map_eq_nil_iff.mp hlower.symm)
  rw [breaksOperand, isLoose, hother _ (by decide) (by decide) (by rw [stopWords]; decide),
    hother _ (by decide) (by decide) (by rw [stopWords]; decide)]
  simp only [Bool.false_or, Bool.or_eq_false_iff]
  exact ⟨hbar '&' _ (by decide), hbar '|' _ (by decide)⟩

/-! ## Where an operand starts -/

/-- Does a separator or a stop word stand at position `i`? -/
def endsOperand (T : Text) (i : Nat) : Bool := T[i]?.any isSeparator || startsStopWord T i

/-- Behind every END and every loose operator in front of position `stop` and on its level an operand starts. -/
def LeftBehind (T : Text) (stop : Nat) : Prop :=
  ∀ k < stop, regionAt? (regions T) k = none → Level T k stop →
    breaksOperand (T.take k).getLast? (T.drop k) = true →
      ∃ m, k < m ∧ m < stop ∧ regionAt? (regions T) m = none ∧ Level T m stop ∧ endsOperand T m = true

/-- The stop word at a place in a text, where its characters are pieces of their own. -/
theorem isWord_of_stopWord {T v w : Text} {ms rs : List Piece} (hp : pieces T = ms ++ (v.map .code ++ rs))
    (hw : w ∈ stopWords) (hlen : v.length = w.length)
    (hs : startsKeyword w (T.take (textOf ms).length).getLast? (T.drop (textOf ms).length) = true) :
    v ≠ [] ∧ ∀ c ∈ v, isWord c = true := by
  obtain ⟨hne, hword⟩ := stopWords_word w hw
  obtain ⟨v', u, hvu, hlen', hv', -⟩ := pieces_stopWord hw hs
  rw [drop_of_pieces hp rfl, textOf_append, textOf_map_code] at hvu
  obtain rfl := (List.append_inj hvu (hlen.trans hlen'.symm)).1
  exact ⟨fun e => hne (List.length_eq_zero_iff.mp (by rw [← hlen, e]; rfl)), isWord_of_lower_eq hv' hword⟩

/-- A list that ends in one element, cut in front of an element: that is the last one, or the last one stands behind. -/
theorem concat_eq_append_cons {α : Type} {xs as ys : List α} {d c : α} (h : xs ++ [d] = as ++ c :: ys) :
    c = d ∨ ∃ ys', xs = as ++ c :: ys' ∧ ys = ys' ++ [d] := by
  rcases List.eq_nil_or_concat ys with rfl | ⟨ys', e, rfl⟩
  · exact Or.inl (List.cons.inj (List.append_inj' h rfl).2).1.symm
  · rw [List.concat_eq_append, ← List.cons_append, ← List.append_assoc] at h
    obtain ⟨hxs, he⟩ := List.append_inj' h rfl
    exact Or.inr ⟨ys', hxs, by rw [List.concat_eq_append, (List.cons.inj he).1]⟩

/-- An END or a loose operator in front of the end of a stop word stands in front of its start. -/
theorem breaksOperand_front {T v w : Text} {as ms ys rs : List Piece} {c : Char}
    (hp : pieces T = ms ++ (v.map .code ++ rs)) (hw : w ∈ stopWords) (hlen : v.length = w.length)
    (hs : startsKeyword w (T.take (textOf ms).length).getLast? (T.drop (textOf ms).length) = true)
    (hcut : ms ++ v.map .code = as ++ .code c :: ys)
    (hb : breaksOperand (T.take (textOf as).length).getLast? (T.drop (textOf as).length) = true) :
    ∃ zs, ms = as ++ .code c :: zs := by
  obtain ⟨-, hword⟩ := isWord_of_stopWord hp hw hlen hs
  rcases append_eq_append_cons hcut with ⟨zs, rfl, hzs⟩ | ⟨zs, hms, -⟩
  · exfalso
    rcases List.eq_nil_or_concat zs with rfl | ⟨zs, q, rfl⟩
    · rw [List.append_nil, breaksOperand_stopWord hw hs] at hb
      cases hb
    · -- within the stop word
      rw [List.concat_eq_append] at hzs hb
      have hall : pieces T = (ms ++ (zs ++ [q])) ++ .code c :: (ys ++ rs) := by rw [hp, hzs]; simp
      have hmem : ∀ p ∈ zs ++ [q] ++ .code c :: ys, ∃ d ∈ v, .code d = p := fun p hp => List.mem_map.mp (hzs ▸ hp)
      obtain ⟨b, hbv, rfl⟩ := hmem q (by simp)
      obtain ⟨c', hcv, hc⟩ := hmem (.code c) (by simp)
      obtain rfl := Piece.code.inj hc
      have hdrop : T.drop (textOf (ms ++ (zs ++ [.code b]))).length = c' :: textOf (ys ++ rs) := drop_of_pieces hall rfl
      have hlast : (textOf (ms ++ (zs ++ [.code b]))).getLast? = some b := by
        rw [← List.append_assoc, textOf_append, List.getLast?_append]
        rfl
      rw [hdrop, take_of_pieces hall rfl, hlast, breaksOperand_in_word (hword b hbv) (hword c' hcv)] at hb
      cases hb
  · exact ⟨zs, hms⟩

/-- **In front of a base.** Behind an END or a loose operator that no open bracket separates from the base, what the
base stands behind is a separator or a stop word. -/
theorem endsOperand_of_standsBehind {T : Text} {signAt : Nat} {front as ys ws rs : List Piece} {c : Char}
    (h : StandsBehind T signAt front) (hp : pieces T = front ++ rs) (hcut : front = as ++ .code c :: ys)
    (hw : nest [] ws = some []) (hn : nest [] (.code c :: (ys ++ ws)) = some [])
    (hb : breaksOperand (T.take (textOf as).length).getLast? (T.drop (textOf as).length) = true) :
    ∃ ms d ns, front = ms ++ .code d :: ns ∧ (textOf as).length < (textOf ms).length ∧
      nest [] (.code d :: (ns ++ ws)) = some [] ∧ endsOperand T (textOf ms).length = true := by
  have hall : pieces T = as ++ .code c :: (ys ++ rs) := by rw [hp, hcut]; simp
  have hdrop : T.drop (textOf as).length = c :: textOf (ys ++ rs) := drop_of_pieces hall rfl
  have hbounds := bounds_of_breaksOperand (hdrop ▸ hb)
  have hlt : ∀ zs, (textOf as).length < (textOf (as ++ .code c :: zs)).length := fun zs => by simp [Piece.text]
  cases h with
  | start => simp at hcut
  | @separator ms d hd =>
    rcases concat_eq_append_cons hcut with he | ⟨ys', rfl, -⟩
    · rw [Piece.code.inj he, hd] at hbounds
      cases hbounds.1
    · have hneutral : nest [] (.code d :: ws) = some [] := by
        obtain ⟨h1, h2, h3⟩ : isQuote d = false ∧ isOpener d = false ∧ isCloser d = false := by
          simp only [isSeparator, Bool.or_eq_true, decide_eq_true_eq] at hd
          rcases hd with (((rfl | rfl) | rfl) | rfl) | rfl <;> decide
        rw [nest_code h1 h2 h3, hw]
      refine ⟨_, d, [], rfl, hlt ys', hneutral, ?_⟩
      have hplace : pieces T = (as ++ .code c :: ys') ++ .code d :: rs := hp.trans (List.append_assoc ..)
      rw [endsOperand, (code_at hplace rfl).1, Option.any_some, hd, Bool.true_or]
  | @stopWord ms v w hw' hlen hs =>
    have hstop := hp.trans (List.append_assoc ..)
    obtain ⟨hne, hword⟩ := isWord_of_stopWord hstop hw' hlen hs
    obtain ⟨zs, rfl⟩ := breaksOperand_front hstop hw' hlen hs hcut hb
    obtain ⟨d, v, rfl⟩ := List.exists_cons_of_ne_nil hne
    refine ⟨_, d, v.map .code, rfl, hlt zs, ?_, ?_⟩
    · rw [← hw, ← nest_word hword [] ws]
      rfl
    · rw [endsOperand, startsStopWord, List.any_eq_true.mpr ⟨w, hw', hs⟩, Bool.or_true]
  | @bracket ms o ho hclosed =>
    rcases concat_eq_append_cons hcut with he | ⟨ys', -, rfl⟩
    · rw [Piece.code.inj he, ho] at hbounds
      cases hbounds.2
    · -- the bracket would be closed
      exfalso
      have hsplit : Piece.code c :: (ys' ++ [.code o] ++ ws) = (.code c :: ys') ++ .code o :: ws := by simp
      rw [hsplit] at hn
      obtain ⟨u, -, hu⟩ := nest_prefix hn
      rw [nest_open ho, nest_balanced hw] at hu
      cases hu

/-! ## The base of an expression -/

section Base

variable {T : Text} {signAt : Nat} {front gap bs gap' rs : List Piece}

/-- If neither END nor a loose operator stands in a base on its level, behind each of them in front of it an operand
starts. -/
theorem leftBehind_of_none (hb : BoundedBase T signAt front gap bs gap') (hp : pieces T = (front ++ gap) ++ (bs ++ rs))
    (hnone : ∀ k, OnLevel T (textOf (front ++ gap)).length (textOf ((front ++ gap) ++ bs)).length k →
      breaksOperand (T.take k).getLast? (T.drop k) = false) : LeftBehind T (textOf ((front ++ gap) ++ bs)).length := by
  have hall : pieces T = ((front ++ gap) ++ bs) ++ rs := by rw [hp]; simp
  have hgap : ∀ p ∈ gap, isTrivia p = true := fun p hm => hb.trivia p (List.mem_append_left _ hm)
  intro k hk hcode hlevel hbreak
  obtain ⟨as, c, ns, hcut, rfl, hn⟩ := (level_to_iff hall hk).mp ⟨hcode, hlevel⟩
  have hplace : pieces T = as ++ .code c :: (ns ++ rs) := by rw [hall, hcut]; simp
  have hdrop : T.drop (textOf as).length = c :: textOf (ns ++ rs) := drop_of_pieces hplace rfl
  rcases append_eq_append_cons hcut with ⟨zs, rfl, hzs⟩ | ⟨zs, hfront, rfl⟩
  · -- not in the base
    have hbase := (level_code_iff hp hk).mpr ⟨zs, c, ns, hzs, rfl, nest_left (hzs ▸ hb.operand.nest) hn⟩
    rw [hnone _ ⟨by rw [textOf_append _ zs, List.length_append]; omega, hk, hbase⟩] at hbreak
    cases hbreak
  rcases append_eq_append_cons hfront with ⟨y, -, hy⟩ | ⟨ys, hy, rfl⟩
  · -- not in the gap
    have hspace : isSpace c = true := hgap (.code c) (by rw [hy]; simp)
    rw [(head_of_breaksOperand (hdrop ▸ hbreak)).1] at hspace
    cases hspace
  have hws : nest [] (gap ++ bs) = some [] := by rw [nest_balanced_append (nest_trivia hgap), hb.operand.nest]
  rw [List.append_assoc] at hn
  obtain ⟨ms, d, ns, hms, hlt, hn', hend⟩ :=
    endsOperand_of_standsBehind hb.behind (hp.trans (List.append_assoc ..)) hy hws hn hbreak
  have hm : (textOf ms).length < (textOf ((front ++ gap) ++ bs)).length := by
    rw [hms]
    simp [Piece.text]
  have hlevel' := (level_to_iff hall hm).mpr ⟨ms, d, ns ++ (gap ++ bs), by rw [hms]; simp, rfl, hn'⟩
  exact ⟨_, hlt, hm, hlevel'.1, hlevel'.2, hend⟩

/-- Behind an END or a loose operator in a base, on its level, no operand starts in front of its end. -/
theorem none_of_leftBehind (hb : BoundedBase T signAt front gap bs gap') (hp : pieces T = (front ++ gap) ++ (bs ++ rs))
    (hleft : LeftBehind T (textOf ((front ++ gap) ++ bs)).length) {k : Nat}
    (hon : OnLevel T (textOf (front ++ gap)).length (textOf ((front ++ gap) ++ bs)).length k) :
    breaksOperand (T.take k).getLast? (T.drop k) = false := by
  have hall : pieces T = ((front ++ gap) ++ bs) ++ rs := by rw [hp]; simp
  obtain ⟨-, hk, hcode, hlevel⟩ := hon
  rw [Bool.eq_false_iff]
  intro hbreak
  obtain ⟨ms, c, ns, rfl, hat, hms⟩ := (level_code_iff hp hk).mp ⟨hcode, hlevel⟩
  obtain ⟨-, hlevel'⟩ := (level_to_iff hall hk).mpr
    ⟨(front ++ gap) ++ ms, c, ns, by simp, hat, nest_rest hb.operand.nest hms⟩
  obtain ⟨m, hkm, hm, hcode', hlevel'', hend⟩ := hleft k hk hcode hlevel' hbreak
  obtain ⟨as, d, ns', hcut, rfl, hn⟩ := (level_to_iff hall hm).mp ⟨hcode', hlevel''⟩
  -- the place stands in the base, on its level
  rcases append_eq_append_cons hcut with ⟨zs, rfl, hzs⟩ | ⟨zs, has, -⟩
  · have hbal := nest_left (hzs ▸ hb.operand.nest) hn
    have hplace : pieces T = ((front ++ gap) ++ zs) ++ .code d :: (ns' ++ rs) := by rw [hp, hzs]; simp
    rw [endsOperand, Bool.or_eq_true] at hend
    rcases hend with hsep | hstop
    · rw [(code_at hplace rfl).1, Option.any_some, hb.operand.separator zs d ns' hzs hbal] at hsep
      cases hsep
    · have hno := hb.stopWord zs d ns' hzs hbal
      rw [← List.append_assoc, hstop] at hno
      cases hno
  · rw [has, List.append_assoc, textOf_append as, List.length_append] at hat
    omega

/-- A base holds neither END nor a loose operator on its level exactly if behind each of them an operand starts. -/
theorem leftBehind_iff (hb : BoundedBase T signAt front gap bs gap') (hp : pieces T = (front ++ gap) ++ (bs ++ rs)) :
    (∀ k, OnLevel T (textOf (front ++ gap)).length (textOf ((front ++ gap) ++ bs)).length k →
      breaksOperand (T.take k).getLast? (T.drop k) = false) ↔ LeftBehind T (textOf ((front ++ gap) ++ bs)).length :=
  ⟨leftBehind_of_none hb hp, fun hleft _ => none_of_leftBehind hb hp hleft⟩

end Base

/-- **Which bases are whole operands.** Where every quote is closed, a base is a whole operand exactly if behind every
END and every loose operator in front of its end, on its level, a separator or a stop word stands. -/
theorem locate_wholeOperand_iff {T : Text} {kw : Nat} {e : Expression} (hq : QuotesClosed T)
    (hcode : regionAt? (regions T) kw = none) (hk : startsKeyword keyword (T.take kw).getLast? (T.drop kw) = true)
    (h : locate T kw = .ok e) :
    ∃ start stop, innerSpan T kw = some (start, stop) ∧ Text.slice T start (start + e.base.length) = e.base ∧
      (WholeOperand T start (start + e.base.length) ↔ LeftBehind T (start + e.base.length)) := by
  obtain ⟨FS, hp, hl⟩ := cut_of_keyword hcode hk
  obtain ⟨front, gap, FA, G, Fb, D, M, Qs, H, hloc, hbase, hp', -, stop, hspan⟩ := locate_base hq hp hl hk h
  have hall : pieces T = (front ++ gap) ++ (Fb ++ (D ++ (M ++ pieces (T.drop kw)))) := by rw [hp']; simp
  have hstop : (textOf ((front ++ gap) ++ Fb)).length = (textOf (front ++ gap)).length + e.base.length := by
    rw [textOf_append _ Fb, List.length_append, hloc.base]
  refine ⟨_, stop, hspan, ?_, ?_⟩
  · rw [← hloc.base]
    exact slice_of_pieces hall rfl rfl
  · rw [← hstop, ← leftBehind_iff hbase hall]
    refine wholeOperand_iff fun k hk => ?_
    obtain ⟨ms, c, ns, hms, rfl, hn⟩ := (level_code_iff hall hk.2.1).mp hk.2.2
    rw [List.append_assoc]
    exact hbase.stopWord ms c ns hms hn

/-- The base of an expression behind a CASE is cut behind THEN, and END stays in it. -/
theorem locate_wholeOperand_case :
    let T := "select case when a then b end + interval 1 second".toList
    let e : Expression := ⟨"b end".toList, [⟨.plus, "1".toList, .second⟩], 24, 49⟩
    QuotesClosed T ∧ regionAt? (regions T) 32 = none ∧
      startsKeyword keyword (T.take 32).getLast? (T.drop 32) = true ∧ locate T 32 = .ok e ∧
      innerSpan T 32 = some (24, 49) ∧ ¬ WholeOperand T 24 29 ∧ ¬ LeftBehind T 29 ∧
      T.take e.start ++ e.render ++ T.drop e.stop =
        "select case when a then datetime(b end, '+' || 1 || ' seconds')".toList := by
  intro T e
  have hquotes : QuotesClosed T := by decide +kernel
  have hcode : regionAt? (regions T) 32 = none := by decide +kernel
  have hkeyword : startsKeyword keyword (T.take 32).getLast? (T.drop 32) = true := by decide +kernel
  have hlocate : locate T 32 = .ok e := eq_ok_of_toOption (by decide +kernel)
  have hspan : innerSpan T 32 = some (24, 49) := by decide +kernel
  have hwords : caseWords T 24 29 = [false] := by decide +kernel
  have hwhole : ¬ WholeOperand T 24 29 := fun hwhole => by
    have hcases := hwhole.cases
    rw [hwords] at hcases
    cases hcases
  obtain ⟨start, stop, hspan', -, hiff⟩ := locate_wholeOperand_iff hquotes hcode hkeyword hlocate
  cases hspan.symm.trans hspan'
  exact ⟨hquotes, hcode, hkeyword, hlocate, hspan, hwhole, fun hleft => hwhole (hiff.mpr hleft), by decide +kernel⟩

end SqlDialect.Interval
