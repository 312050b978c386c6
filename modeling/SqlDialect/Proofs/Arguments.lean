import SqlDialect.Proofs.Arithmetic
import SqlDialect.Proofs.Interval.Written

/-!
# The arguments of a call

A call is a name with a parenthesis that is closed by the last character. Its arguments are what stands between the
commas outside brackets and literals.

* `splitTopLevel_arguments`: texts that are arguments are found again between the commas.
* `arguments?_call`: so the arguments of a call are those that it is written with.
* `isArgument_of_lex`: an expression whose tokens match is one argument.
-/

namespace SqlDialect

/-! ## Separators -/

/-- Balanced pieces without a comma at their top level. -/
structure OneArgument (ps : List Piece) : Prop where
  nest : nest [] ps = some []
  comma : ∀ ms ns, ps = ms ++ .code ',' :: ns → SqlDialect.nest [] ms ≠ some []

/-- What has no separator at its top level belongs to one part. -/
theorem splitPieces_item {sep : Char} {s : List Char} {ps : List Piece} (h : nest s ps = some [])
    (hs : ∀ ms ns, ps = ms ++ .code sep :: ns → nest s ms ≠ some []) (rest : List Piece) :
    splitPieces sep s.length (ps ++ rest) = (textOf ps ++ (splitPieces sep 0 rest).1, (splitPieces sep 0 rest).2) := by
  induction ps generalizing s with
  | nil =>
    obtain rfl := Option.some.inj h
    rfl
  | cons p ps ih =>
    obtain ⟨s', hstep, hrest⟩ := nest_cons_iff.mp h
    have hsep : ¬ (p = .code sep ∧ s = [] ∧ s' = []) := by
      rintro ⟨rfl, rfl, -⟩
      exact hs [] ps rfl rfl
    have hs' : ∀ ms ns, ps = ms ++ .code sep :: ns → nest s' ms ≠ some [] := fun ms ns he => by
      rw [← hstep.nest_cons]
      exact hs (p :: ms) ns (by rw [he]; rfl)
    rw [List.cons_append, hstep.splitPieces_cons hsep, ih hrest hs', textOf_cons, List.append_assoc]

theorem splitPieces_arguments {q : List Piece} {qs : List (List Piece)} (hq : OneArgument q)
    (hqs : ∀ x ∈ qs, OneArgument x) :
    splitPieces ',' 0 (q ++ qs.flatMap (.code ',' :: ·)) = (textOf q, qs.map textOf) := by
  induction qs generalizing q with
  | nil =>
    have h := splitPieces_item hq.nest hq.comma []
    rw [List.length_nil] at h
    rw [List.flatMap_nil, h, splitPieces]
    simp
  | cons x qs ih =>
    have h := splitPieces_item hq.nest hq.comma ((x :: qs).flatMap (.code ',' :: ·))
    rw [List.length_nil] at h
    rw [h, List.flatMap_cons, List.cons_append, splitPieces, if_neg (by decide), if_neg (by decide),
      if_pos ⟨rfl, rfl⟩, ih (hqs x List.mem_cons_self) fun y hy => hqs y (List.mem_cons_of_mem _ hy)]
    simp

/-! ## Arguments as texts -/

/-- In front of a comma the text is one argument. -/
def IsArgument (t : Text) : Prop := ∃ ps, Reads t [','] ps ∧ OneArgument ps

/-- An argument is read so in front of a comma or a parenthesis, whatever stands behind that. -/
theorem OneArgument.reads {t : Text} {ps : List Piece} (h : OneArgument ps) (hread : Reads t [','] ps) {d : Char}
    (hd : d = ',' ∨ d = ')') (r : Text) : Reads t (d :: r) ps := by
  apply hread.context (by simp)
  · intro _ _ _ hc
    cases hc
  · right
    rcases hd with rfl | rfl
    · exact apart_comma t r
    · exact apart_of_head rfl (by decide) (by decide) (by decide) t
  · intro q hq hm
    rw [isQuote_of_nest h.nest hm] at hq
    cases hq

/-- The pieces of some arguments with commas between them. -/
theorem arguments_pieces {a : Text} {as : List Text} (ha : IsArgument a) (has : ∀ x ∈ as, IsArgument x) :
    ∃ (q : List Piece) (qs : List (List Piece)), Reads (joinParts ',' a as) [')'] (q ++ qs.flatMap (.code ',' :: ·)) ∧
      textOf q = a ∧ qs.map textOf = as ∧ OneArgument q ∧ ∀ x ∈ qs, OneArgument x := by
  induction as generalizing a with
  | nil =>
    obtain ⟨q, hread, hq⟩ := ha
    have hend := hq.reads hread (Or.inr rfl) []
    exact ⟨q, [], by simpa [joinParts] using hend, hend.textOf_eq, rfl, hq, by simp⟩
  | cons x as ih =>
    obtain ⟨q, hread, hq⟩ := ha
    obtain ⟨x', qs, hreads, rfl, rfl, hx, hqs⟩ :=
      ih (has x List.mem_cons_self) fun y hy => has y (List.mem_cons_of_mem _ hy)
    have hcomma : Reads (',' :: joinParts ',' (textOf x') (qs.map textOf)) [')']
        (.code ',' :: (x' ++ qs.flatMap (.code ',' :: ·))) := by
      rw [Reads, List.cons_append, pieces_comma, hreads]
      rfl
    have hfront := hq.reads hread (Or.inl rfl) (joinParts ',' (textOf x') (qs.map textOf) ++ [')'])
    exact ⟨q, x' :: qs, hfront.append hcomma, hfront.textOf_eq, rfl, hq, List.forall_mem_cons.mpr ⟨hx, hqs⟩⟩

/-- Arguments with commas between them are balanced. -/
theorem nest_arguments {q : List Piece} {qs : List (List Piece)} (hq : OneArgument q) (hqs : ∀ x ∈ qs, OneArgument x) :
    nest [] (q ++ qs.flatMap (.code ',' :: ·)) = some [] := by
  rw [nest_balanced_append hq.nest]
  induction qs with
  | nil => rfl
  | cons x qs ih =>
    have hcomma : ∀ ps, nest [] (.code ',' :: ps) = nest [] ps := nest_code rfl rfl rfl []
    rw [List.flatMap_cons, List.cons_append, hcomma, nest_balanced_append (hqs x List.mem_cons_self).nest]
    exact ih fun y hy => hqs y (List.mem_cons_of_mem _ hy)

/-- **Arguments.** With commas between them they are found again. -/
theorem splitTopLevel_arguments {a : Text} {as : List Text} (ha : IsArgument a) (has : ∀ x ∈ as, IsArgument x) :
    splitTopLevel (joinParts ',' a as) ',' = a :: as := by
  obtain ⟨q, qs, hread, rfl, rfl, hq, hqs⟩ := arguments_pieces ha has
  rw [splitTopLevel, splitPieces_of_reads hread (by decide), splitPieces_arguments hq hqs]

/-! ## Calls -/

/-- The arguments of the call of `name` that a text is as a whole: its parenthesis is closed by the last character. -/
def arguments? (name text : Text) : Option (List Text) :=
  match text.drop name.length with
  | [] => none
  | c :: rest =>
    if text.take name.length = name ∧ c = '(' ∧ closingOffset? (c :: rest) = some rest.length then
      some (splitTopLevel rest.dropLast ',')
    else none

/-- **A call.** Its arguments are those that it is written with. -/
theorem arguments?_call (name : Text) {a : Text} {as : List Text} (ha : IsArgument a) (has : ∀ x ∈ as, IsArgument x) :
    arguments? name (name ++ '(' :: (joinParts ',' a as ++ [')'])) = some (a :: as) := by
  obtain ⟨q, qs, hread, -, -, hq, hqs⟩ := arguments_pieces ha has
  have hclose : closingOffset? ('(' :: (joinParts ',' a as ++ [')'])) = some (joinParts ',' a as ++ [')']).length := by
    have hclosed : closingIn ['('] (joinParts ',' a as ++ [')']) = some (joinParts ',' a as).length := by
      refine closingIn_iff (s := []).mpr ⟨q ++ qs.flatMap (.code ',' :: ·), ')', [], ?_, ?_, nest_arguments hq hqs, rfl⟩
      · rw [hread, pieces_parenthesis]
      · rw [hread.textOf_eq]
    rw [closingOffset?, if_neg (by decide), if_pos (by decide), hclosed]
    simp
  rw [arguments?, List.drop_left, List.take_left]
  simp only [hclose, and_self, if_true, List.dropLast_concat, splitTopLevel_arguments ha has]

/-! ## Expressions as arguments -/

namespace Arithmetic

/-- The brackets that some tokens leave open, behind those in `stack`. -/
def openAfter (stack : List Char) : List Token → Option (List Char)
  | [] => some stack
  | .opening :: ts => openAfter ('(' :: stack) ts
  | .closing :: ts =>
    match stack with
    | '(' :: outer => openAfter outer ts
    | _ => none
  | _ :: ts => openAfter stack ts

theorem openAfter_append (stack : List Char) (ts us : List Token) :
    openAfter stack (ts ++ us) = (openAfter stack ts).bind (openAfter · us) := by
  fun_induction openAfter stack ts with
  | case1 => rfl
  | case2 stack ts ih => exact ih
  | case3 outer ts ih => exact ih
  | case4 stack ts hne =>
    rw [List.cons_append, openAfter]
    · rfl
    · exact hne
  | case5 stack t ts ho hc ih =>
    rw [List.cons_append, openAfter]
    · exact ih
    · exact ho
    · exact hc

section Token

variable {c : Char} {rest : Text} {n : Nat} {t : Token}

/-- The pieces that a token is made of hold no comment and no comma, and leave the same brackets open as the token. -/
def TokenPieces (text : Text) (t : Token) (rest : Text) : Prop :=
  ∃ qs, pieces text = qs ++ pieces rest ∧ (∀ u, .region .comment u ∉ qs) ∧ .code ',' ∉ qs ∧
    ∀ stack, nest stack qs = openAfter stack [t]

theorem tokenPieces_symbol (hr : regionTail? c rest = none) (hc : c ≠ ',')
    (hn : ∀ stack, nest stack [.code c] = openAfter stack [t]) : TokenPieces (c :: rest) t rest :=
  ⟨[.code c], pieces_code hr, by simp, by simpa using hc.symm, hn⟩

theorem tokenPieces_quoted (hq : isQuote c = true) (hn : rest.idxOf? c = some n)
    (ht : ∀ stack, openAfter stack [t] = some stack) : TokenPieces (c :: rest) t (rest.drop (n + 1)) := by
  have hregion : regionTail? c rest = some (.literal, n + 1) := by
    rw [regionTail?, literalTail?, if_pos hq, hn]
    rfl
  exact ⟨[.region .literal (c :: rest.take (n + 1))], pieces_region hregion, by simp, by simp,
    fun stack => (ht stack).symm⟩

theorem tokenPieces_word (hc : isTokenChar c = true) (ht : word? (c :: rest.takeWhile isTokenChar) = some t) :
    TokenPieces (c :: rest) t (rest.drop (rest.takeWhile isTokenChar).length) := by
  have hall : ∀ d ∈ c :: rest.takeWhile isTokenChar, isTokenChar d = true :=
    List.forall_mem_cons.mpr ⟨hc, fun d hd => List.all_eq_true.mp List.all_takeWhile d hd⟩
  have hread := Interval.reads_token (List.all_eq_true.mpr hall) (rest.dropWhile isTokenChar)
  have hsplit : (c :: rest.takeWhile isTokenChar) ++ rest.dropWhile isTokenChar = c :: rest := by simp
  have hdrop : rest.drop (rest.takeWhile isTokenChar).length = rest.dropWhile isTokenChar := by
    have h := congrArg (List.drop (c :: rest.takeWhile isTokenChar).length) hsplit
    rw [List.drop_left, List.length_cons, List.drop_succ_cons] at h
    exact h.symm
  rw [Reads, hsplit] at hread
  rw [hdrop]
  refine ⟨_, hread, by simp, fun hm => ?_, fun stack => ?_⟩
  · obtain ⟨d, hd, he⟩ := List.mem_map.mp hm
    rw [Piece.code.inj he] at hd
    cases hall _ hd
  · have hneutral := nest_map_code (fun d hd => neutral_of_class (by decide) (hall d hd)) stack []
    rw [List.append_nil] at hneutral
    rw [hneutral, nest_nil]
    -- a word is a number or a name
    unfold word? at ht
    split at ht
    · cases ht
      rfl
    · split at ht
      · cases ht
      · cases ht
        rfl

theorem nest_closing (stack : List Char) : nest stack [.code ')'] = openAfter stack [.closing] := by
  have hquote : isQuote ')' = false := rfl
  have hopener : isOpener ')' = false := rfl
  have hcloser : openerOf? ')' = some '(' := rfl
  cases stack with
  | nil => simp [nest, openAfter, hquote, hopener, hcloser]
  | cons top outer =>
    by_cases htop : top = '('
    · subst htop
      rfl
    · simp [nest, openAfter, hquote, hopener, hcloser, htop]

/-- The pieces of a token. -/
theorem token?_pieces (h : token? c rest = some (t, n)) : TokenPieces (c :: rest) t (rest.drop n) := by
  have hsymbol : ∀ {t' : Token} {k : Nat}, some (t', k) = some (t, n) → t' = t ∧ k = n :=
    fun h => Prod.mk.inj (Option.some.inj h)
  have hplain : ∀ {d : Char} (x : Text), isQuote d = false ∧ d ≠ '#' ∧ d ≠ '/' ∧ d ≠ '-' → regionTail? d x = none :=
    fun x h => regionTail?_of_ne h.1 h.2.1 h.2.2.1 h.2.2.2 x
  have hneutral : ∀ {d : Char}, isQuote d = false ∧ isOpener d = false ∧ isCloser d = false →
      ∀ stack, nest stack [.code d] = some stack := fun h stack => nest_code h.1 h.2.1 h.2.2 stack []
  unfold token? at h
  split at h
  · next hc =>
    obtain ⟨t', ht, he⟩ := Option.map_eq_some_iff.mp h
    obtain ⟨rfl, rfl⟩ := Prod.mk.inj he
    exact tokenPieces_word hc ht
  · split at h
    · obtain ⟨rfl, rfl⟩ := hsymbol h
      exact tokenPieces_symbol (hplain _ (by decide)) (by decide) fun stack => nest_open rfl stack []
    · obtain ⟨rfl, rfl⟩ := hsymbol h
      exact tokenPieces_symbol (hplain _ (by decide)) (by decide) nest_closing
    · next rest =>
      obtain ⟨rfl, rfl⟩ := hsymbol h
      refine ⟨[.code '|', .code '|'], ?_, by simp, by simp, fun stack => ?_⟩
      · rw [pieces_code (hplain _ (by decide)), pieces_code (hplain _ (by decide))]
        rfl
      · rw [nest_code rfl rfl rfl, hneutral (by decide)]
        rfl
    · obtain ⟨rfl, rfl⟩ := hsymbol h
      exact tokenPieces_symbol (hplain _ (by decide)) (by decide) (hneutral (by decide))
    · obtain ⟨rfl, rfl⟩ := hsymbol h
      exact tokenPieces_symbol (hplain _ (by decide)) (by decide) (hneutral (by decide))
    · split at h
      · cases h
      · next hdash =>
        obtain ⟨rfl, rfl⟩ := hsymbol h
        exact ⟨[.code '-'], Interval.reads_dash hdash, by simp, by simp, hneutral (by decide)⟩
    · obtain ⟨k, hk, he⟩ := Option.map_eq_some_iff.mp h
      obtain ⟨rfl, rfl⟩ := Prod.mk.inj he
      exact tokenPieces_quoted rfl hk fun stack => rfl
    · obtain ⟨k, hk, he⟩ := Option.map_eq_some_iff.mp h
      obtain ⟨rfl, rfl⟩ := Prod.mk.inj he
      exact tokenPieces_quoted rfl hk fun stack => rfl
    · cases h

/-- An expression holds no comment and no comma, and the brackets that it leaves open are those of its tokens. -/
theorem lex_pieces {a : Text} {ts : List Token} (h : lex a = some ts) :
    (∀ u, .region .comment u ∉ pieces a) ∧ .code ',' ∉ pieces a ∧
      ∀ stack, nest stack (pieces a) = openAfter stack ts := by
  fun_induction lex a generalizing ts with
  | case1 =>
    obtain rfl := Option.some.inj h
    simp [openAfter]
  | case2 c rest hc ih =>
    have hspace := isSpace_of_isBlank hc
    have hp := pieces_code (regionTail?_of_isSpace hspace rest)
    obtain ⟨hcomment, hcomma, hnest⟩ := ih h
    have hne : ',' ≠ c := by
      rintro rfl
      cases hc
    rw [hp]
    obtain ⟨hquote, hopener, hcloser⟩ := neutral_of_class (by decide) hspace
    exact ⟨by simpa using hcomment, by simpa [hne] using hcomma,
      fun stack => (nest_code hquote hopener hcloser stack _).trans (hnest stack)⟩
  | case3 => cases h
  | case4 c rest hc t n ht ih =>
    obtain ⟨us, hus, rfl⟩ := Option.map_eq_some_iff.mp h
    obtain ⟨qs, hp, hqs, hq, hn⟩ := token?_pieces ht
    obtain ⟨hcomment, hcomma, hnest⟩ := ih hus
    rw [hp]
    refine ⟨?_, ?_, fun stack => ?_⟩
    · intro u hu
      exact (List.mem_append.mp hu).elim (hqs u) (hcomment u)
    · exact fun hm => (List.mem_append.mp hm).elim hq hcomma
    · have htokens := openAfter_append stack [t] us
      rw [List.singleton_append] at htokens
      rw [nest_append, hn, htokens]
      simp only [hnest]

/-- **An expression is one argument.** Its tokens leave no bracket open. -/
theorem isArgument_of_lex {a : Text} {ts : List Token} (h : lex a = some ts) (hts : openAfter [] ts = some []) :
    IsArgument a := by
  obtain ⟨hcomment, hcomma, hnest⟩ := lex_pieces h
  have hn : nest [] (pieces a) = some [] := (hnest []).trans hts
  refine ⟨pieces a, reads_of_nest hcomment hn (apart_comma a []), hn, fun ms ns he => ?_⟩
  rw [he] at hcomma
  exact absurd (by simp) hcomma

end Token

/-! ## Amounts -/

mutual

theorem openAfter_amount (x : Amount) (stack : List Char) : openAfter stack x.tokens = some stack := by
  cases x with
  | product x => exact openAfter_product x stack
  | add x y =>
    rw [Amount.tokens, openAfter_append, openAfter_amount x]
    exact openAfter_product y stack
  | sub x y =>
    rw [Amount.tokens, openAfter_append, openAfter_amount x]
    exact openAfter_product y stack

theorem openAfter_product (x : Product) (stack : List Char) : openAfter stack x.tokens = some stack := by
  cases x with
  | factor x => exact openAfter_factor x stack
  | mul x y =>
    rw [Product.tokens, openAfter_append, openAfter_product x]
    exact openAfter_factor y stack

theorem openAfter_factor (x : Factor) (stack : List Char) : openAfter stack x.tokens = some stack := by
  cases x with
  | number digits => rfl
  | name spelling => rfl
  | neg x => exact openAfter_factor x stack
  | group x =>
    rw [Factor.tokens, openAfter, openAfter_append, openAfter_amount x]
    rfl

end

end Arithmetic

end SqlDialect
