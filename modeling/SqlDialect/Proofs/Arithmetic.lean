import SqlDialect.Decimal.Reading
import SqlDialect.Interval.Basic

/-!
# Arithmetic in the embedded dialect

An expression of the embedded dialect is cut into tokens and read by the precedence of its operators: a minus sign in
front of an operand binds tightest, then `||`, then `*`, then `+` and `-`, and operators of one precedence are read from
the left. Its value is an integer or a text; an integer that is concatenated is written in decimal.

An `Amount` is an arithmetic expression as a grammar builds it, with its tokens and its value.

* `expression_amount`: the tokens of a sum are read as that sum.
* `evaluate_amount`: what a sum is read as has the value of the sum.
* `lex_append`: the tokens of neighbouring texts make up the tokens of both.
* `offset?_decimal`: an integer in decimal is read back as that integer.
-/

namespace SqlDialect.Arithmetic

/-! ## Tokens -/

/-- A token of an expression. -/
inductive Token where
  | number (digits : Text)
  | name (spelling : Text)
  | quoted (content : Text)
  | opening
  | closing
  | concat
  | times
  | plus
  | minus
  deriving DecidableEq, Repr

/-- Names and numbers are made of word characters and points. -/
def isTokenChar (c : Char) : Bool := isWord c || c = '.'

/-- The token that a run of word characters and points is. -/
def word? (word : Text) : Option Token :=
  if word.all Char.isDigit then some (.number word)
  else if word.head?.any fun c => c.isDigit || c = '.' then none
  else some (.name word)

/-- The token that starts with `c`, and the number of its characters behind `c`. Two dashes open a comment. -/
def token? (c : Char) (rest : Text) : Option (Token × Nat) :=
  if isTokenChar c then
    let word := rest.takeWhile isTokenChar
    (word? (c :: word)).map (·, word.length)
  else
    match c, rest with
    | '(', _ => some (.opening, 0)
    | ')', _ => some (.closing, 0)
    | '|', '|' :: _ => some (.concat, 1)
    | '*', _ => some (.times, 0)
    | '+', _ => some (.plus, 0)
    | '-', rest => if rest.head? = some '-' then none else some (.minus, 0)
    | '\'', rest => (rest.idxOf? '\'').map fun n => (.quoted (rest.take n), n + 1)
    | '\x60', rest => (rest.idxOf? '\x60').map fun n => (.name ('\x60' :: rest.take (n + 1)), n + 1)
    | _, _ => none

/-- The tokens of a text, with blanks between them. -/
def lex : Text → Option (List Token)
  | [] => some []
  | c :: rest =>
    if isBlank c then lex rest
    else
      match token? c rest with
      | none => none
      | some (t, n) => (lex (rest.drop n)).map (t :: ·)
termination_by text => text.length
decreasing_by all_goals simp only [List.length_drop, List.length_cons]; omega

/-! ## Reading by precedence -/

/-- The operators between two operands. -/
inductive Operator where
  | concat
  | times
  | plus
  | minus
  deriving DecidableEq, Repr

/-- The operator that a token is. -/
def operator? : Token → Option Operator
  | .concat => some .concat
  | .times => some .times
  | .plus => some .plus
  | .minus => some .minus
  | _ => none

/-- An operator of higher precedence binds tighter. -/
def Operator.precedence : Operator → Nat
  | concat => 2
  | times => 1
  | plus | minus => 0

/-- An expression as it is read. -/
inductive Expr where
  | number (digits : Text)
  | name (spelling : Text)
  | quoted (content : Text)
  | neg (x : Expr)
  | binary (op : Operator) (x y : Expr)
  deriving DecidableEq, Repr

mutual

/-- The operand that some tokens start with, and the tokens behind it. -/
def operand : List Token → Option (Expr × List Token)
  | .number digits :: ts => some (.number digits, ts)
  | .name spelling :: ts => some (.name spelling, ts)
  | .quoted content :: ts => some (.quoted content, ts)
  | .minus :: ts => (operand ts).map fun (x, rest) => (.neg x, rest)
  | .opening :: ts =>
    match expression 0 ts with
    | some (x, .closing :: rest) => some (x, rest)
    | _ => none
  | _ => none
termination_by ts => (ts.length, 0)

/-- The expression that some tokens start with, as far as its operators have at least the given precedence. -/
def expression (precedence : Nat) (ts : List Token) : Option (Expr × List Token) :=
  match operand ts with
  | some (x, rest) => if rest.length < ts.length then further precedence x rest else none
  | none => none
termination_by (ts.length, 1)

/-- The expression whose first part `x` has been read. -/
def further (precedence : Nat) (x : Expr) (ts : List Token) : Option (Expr × List Token) :=
  match ts with
  | [] => some (x, [])
  | t :: rest =>
    match operator? t with
    | none => some (x, t :: rest)
    | some op =>
      if precedence ≤ op.precedence then
        match expression (op.precedence + 1) rest with
        | some (y, behind) => if behind.length < rest.length then further precedence (.binary op x y) behind else none
        | none => none
      else some (x, t :: rest)
termination_by (ts.length, 0)

end

/-! ## Values -/

/-- The value of an expression. -/
inductive Value where
  | integer (n : Int)
  | text (t : Text)
  deriving DecidableEq, Repr

/-- An integer in decimal. -/
def decimal (n : Int) : Text := if n < 0 then '-' :: Nat.toDigits 10 n.natAbs else Nat.toDigits 10 n.natAbs

/-- How a value is written where it is concatenated. -/
def Value.shown : Value → Text
  | integer n => decimal n
  | text t => t

/-- The integer that an operator gives. -/
def Operator.apply (op : Operator) (x y : Value) : Option Value :=
  match op, x, y with
  | concat, x, y => some (.text (x.shown ++ y.shown))
  | times, .integer m, .integer n => some (.integer (m * n))
  | plus, .integer m, .integer n => some (.integer (m + n))
  | minus, .integer m, .integer n => some (.integer (m - n))
  | _, _, _ => none

/-- The value of an expression where the names have the given values. -/
def evaluate (names : Text → Int) : Expr → Option Value
  | .number digits => some (.integer (Decimal.value digits))
  | .name spelling => some (.integer (names spelling))
  | .quoted content => some (.text content)
  | .neg x =>
    match evaluate names x with
    | some (.integer n) => some (.integer (-n))
    | _ => none
  | .binary op x y =>
    match evaluate names x, evaluate names y with
    | some a, some b => op.apply a b
    | _, _ => none

/-- The value of a text that is an expression as a whole. -/
def valueOf (names : Text → Int) (text : Text) : Option Value :=
  match (lex text).bind (expression 0) with
  | some (x, []) => evaluate names x
  | _ => none

/-- The integer and the unit of a date modifier such as `-5 days`. -/
def offset? : Value → Option (Int × Text)
  | .text t => (Decimal.integer? (t.takeWhile (· ≠ ' '))).map (·, (t.dropWhile (· ≠ ' ')).tail)
  | .integer _ => none

/-! ## Sums -/

mutual

/-- Products with `+` and `-` between them. -/
inductive Amount where
  | product (x : Product)
  | add (x : Amount) (y : Product)
  | sub (x : Amount) (y : Product)

/-- Factors with `*` between them. -/
inductive Product where
  | factor (x : Factor)
  | mul (x : Product) (y : Factor)

/-- A numeral, a name, a factor with a minus sign in front or a sum in parentheses. -/
inductive Factor where
  | number (digits : Text)
  | name (spelling : Text)
  | neg (x : Factor)
  | group (x : Amount)

end

mutual

/-- The tokens of a sum. -/
def Amount.tokens : Amount → List Token
  | .product x => x.tokens
  | .add x y => x.tokens ++ .plus :: y.tokens
  | .sub x y => x.tokens ++ .minus :: y.tokens

/-- The tokens of a product. -/
def Product.tokens : Product → List Token
  | .factor x => x.tokens
  | .mul x y => x.tokens ++ .times :: y.tokens

/-- The tokens of a factor. -/
def Factor.tokens : Factor → List Token
  | .number digits => [.number digits]
  | .name spelling => [.name spelling]
  | .neg x => .minus :: x.tokens
  | .group x => .opening :: (x.tokens ++ [.closing])

end

mutual

/-- The value of a sum. -/
def Amount.value (names : Text → Int) : Amount → Int
  | .product x => x.value names
  | .add x y => x.value names + y.value names
  | .sub x y => x.value names - y.value names

/-- The value of a product. -/
def Product.value (names : Text → Int) : Product → Int
  | .factor x => x.value names
  | .mul x y => x.value names * y.value names

/-- The value of a factor. -/
def Factor.value (names : Text → Int) : Factor → Int
  | .number digits => Decimal.value digits
  | .name spelling => names spelling
  | .neg x => -x.value names
  | .group x => x.value names

end

/-- The text is a way to write the sum. -/
def Spells (p : Amount) (text : Text) : Prop := lex text = some p.tokens

mutual

/-- What a sum is read as. -/
def Amount.expr : Amount → Expr
  | .product x => x.expr
  | .add x y => .binary .plus x.expr y.expr
  | .sub x y => .binary .minus x.expr y.expr

/-- What a product is read as. -/
def Product.expr : Product → Expr
  | .factor x => x.expr
  | .mul x y => .binary .times x.expr y.expr

/-- What a factor is read as. -/
def Factor.expr : Factor → Expr
  | .number digits => .number digits
  | .name spelling => .name spelling
  | .neg x => .neg x.expr
  | .group x => x.expr

end

/-! ## Reading a sum -/

section Reading

variable {ts rest : List Token}

/-- No operator of the given precedence or a higher one follows. -/
def Looser (precedence : Nat) (ts : List Token) : Prop :=
  ∀ t op, ts.head? = some t → operator? t = some op → op.precedence < precedence

theorem Looser.mono {p q : Nat} (h : Looser p ts) (hpq : p ≤ q) : Looser q ts :=
  fun t op ht ho => Nat.lt_of_lt_of_le (h t op ht ho) hpq

theorem looser_of_operator? {t : Token} {op : Operator} (h : operator? t = some op) {p : Nat} (hp : op.precedence < p)
    (ts : List Token) : Looser p (t :: ts) := by
  intro t' op' ht ho
  rw [← Option.some.inj ht, h] at ho
  rwa [← Option.some.inj ho]

theorem looser_closing (p : Nat) (ts : List Token) : Looser p (.closing :: ts) := by
  intro t op ht ho
  rw [← Option.some.inj ht] at ho
  cases ho

/-- An expression ends in front of an operator that binds less tightly. -/
theorem further_of_looser {p : Nat} (h : Looser p ts) (x : Expr) : further p x ts = some (x, ts) := by
  cases ts with
  | nil => rw [further]
  | cons t ts =>
    rw [further]
    cases ho : operator? t with
    | none => rfl
    | some op =>
      have hlt := h t op rfl ho
      simp only
      rw [if_neg (Nat.not_le.mpr hlt)]

theorem expression_of_operand {x : Expr} (h : operand ts = some (x, rest)) (hl : rest.length < ts.length) (p : Nat) :
    expression p ts = further p x rest := by
  rw [expression, h]
  simp only
  rw [if_pos hl]

/-- What follows an operator that binds tightly enough is its right operand. -/
theorem further_of_operator? {t : Token} {op : Operator} (ho : operator? t = some op) {p : Nat}
    (hp : p ≤ op.precedence) {x y : Expr} (h : expression (op.precedence + 1) ts = some (y, rest))
    (hl : rest.length < ts.length) : further p x (t :: ts) = further p (.binary op x y) rest := by
  rw [further]
  simp only [ho, h]
  rw [if_pos hp, if_pos hl]

theorem looser_nil (p : Nat) : Looser p [] := by
  intro t op ht
  cases ht

/-- A right operand of one token. -/
theorem further_token {o t : Token} {op : Operator} (ho : operator? o = some op) {p : Nat} (hp : p ≤ op.precedence)
    {x y : Expr} (h : operand (t :: rest) = some (y, rest)) (hr : Looser (op.precedence + 1) rest) :
    further p x (o :: t :: rest) = further p (.binary op x y) rest := by
  have hy : expression (op.precedence + 1) (t :: rest) = some (y, rest) := by
    rw [expression_of_operand h (by simp), further_of_looser hr]
  exact further_of_operator? ho hp hy (by simp)

end Reading

theorem Factor.tokens_ne_nil (x : Factor) : x.tokens ≠ [] := by
  cases x <;> simp [Factor.tokens]

theorem Product.tokens_ne_nil (x : Product) : x.tokens ≠ [] := by
  cases x with
  | factor x => exact x.tokens_ne_nil
  | mul x y => simp [Product.tokens]

theorem length_lt_append {xs : List Token} (h : xs ≠ []) (rest : List Token) : rest.length < (xs ++ rest).length := by
  have := List.length_pos_iff.mpr h
  rw [List.length_append]
  omega

mutual

/-- The tokens of a sum are read as that sum. -/
theorem expression_amount (x : Amount) {rest : List Token} (h : Looser 1 rest) :
    expression 0 (x.tokens ++ rest) = further 0 x.expr rest := by
  cases x with
  | product x => exact expression_product x (h.mono (by decide)) (by decide)
  | add x y =>
    have hy : expression 1 (y.tokens ++ rest) = some (y.expr, rest) := by
      rw [expression_product y (h.mono (by decide)) (by decide), further_of_looser h]
    rw [Amount.tokens, List.append_assoc, List.cons_append, expression_amount x (looser_of_operator? rfl (by decide) _)]
    exact further_of_operator? rfl (by decide) hy (length_lt_append y.tokens_ne_nil rest)
  | sub x y =>
    have hy : expression 1 (y.tokens ++ rest) = some (y.expr, rest) := by
      rw [expression_product y (h.mono (by decide)) (by decide), further_of_looser h]
    rw [Amount.tokens, List.append_assoc, List.cons_append, expression_amount x (looser_of_operator? rfl (by decide) _)]
    exact further_of_operator? rfl (by decide) hy (length_lt_append y.tokens_ne_nil rest)

/-- The tokens of a product are read as that product. -/
theorem expression_product (x : Product) {rest : List Token} (h : Looser 2 rest) {p : Nat} (hp : p ≤ 1) :
    expression p (x.tokens ++ rest) = further p x.expr rest := by
  cases x with
  | factor x => exact expression_of_operand (operand_factor x rest) (length_lt_append x.tokens_ne_nil rest) p
  | mul x y =>
    have hl := length_lt_append y.tokens_ne_nil rest
    have hy : expression 2 (y.tokens ++ rest) = some (y.expr, rest) := by
      rw [expression_of_operand (operand_factor y rest) hl, further_of_looser h]
    rw [Product.tokens, List.append_assoc, List.cons_append,
      expression_product x (looser_of_operator? rfl (by decide) _) hp]
    exact further_of_operator? rfl hp hy hl

/-- The tokens of a factor are read as that factor. -/
theorem operand_factor (x : Factor) (rest : List Token) : operand (x.tokens ++ rest) = some (x.expr, rest) := by
  cases x with
  | number digits => simp [Factor.tokens, Factor.expr, operand]
  | name spelling => simp [Factor.tokens, Factor.expr, operand]
  | neg x =>
    rw [Factor.tokens, List.cons_append, operand, operand_factor x rest]
    rfl
  | group x =>
    rw [Factor.tokens, List.cons_append, List.append_assoc, List.singleton_append, operand,
      expression_amount x (looser_closing 1 rest), further_of_looser (looser_closing 0 rest)]
    rfl

end

mutual

/-- What a sum is read as has the value of the sum. -/
theorem evaluate_amount (names : Text → Int) (x : Amount) :
    evaluate names x.expr = some (.integer (x.value names)) := by
  cases x with
  | product x => exact evaluate_product names x
  | add x y =>
    simp [Amount.expr, evaluate, evaluate_amount names x, evaluate_product names y, Operator.apply, Amount.value]
  | sub x y =>
    simp [Amount.expr, evaluate, evaluate_amount names x, evaluate_product names y, Operator.apply, Amount.value]

theorem evaluate_product (names : Text → Int) (x : Product) :
    evaluate names x.expr = some (.integer (x.value names)) := by
  cases x with
  | factor x => exact evaluate_factor names x
  | mul x y =>
    simp [Product.expr, evaluate, evaluate_product names x, evaluate_factor names y, Operator.apply, Product.value]

theorem evaluate_factor (names : Text → Int) (x : Factor) :
    evaluate names x.expr = some (.integer (x.value names)) := by
  cases x with
  | number digits => rfl
  | name spelling => rfl
  | neg x => simp [Factor.expr, evaluate, evaluate_factor names x, Factor.value]
  | group x => exact evaluate_amount names x

end

/-! ## Neighbouring texts -/

/-- The token behind a text goes on with none of its characters. -/
def Ends (r : Text) : Prop := r.head? = some ' ' ∨ r.head? = some ')'

theorem Ends.append {r : Text} (h : Ends r) (s : Text) : Ends (r ++ s) := by
  cases r with
  | nil => rcases h with h | h <;> cases h
  | cons c r => exact h

theorem Ends.not_tokenChar {r : Text} (h : Ends r) : r.takeWhile isTokenChar = [] := by
  cases r with
  | nil => rfl
  | cons c r =>
    rcases h with h | h
    all_goals
      rw [Option.some.inj h]
      rfl

theorem Ends.not_dash {r : Text} (h : Ends r) : r.head? ≠ some '-' := by
  intro hd
  rcases h with h | h
  all_goals
    rw [hd] at h
    cases h

theorem takeWhile_append_of_ends {a r : Text} (h : Ends r) :
    (a ++ r).takeWhile isTokenChar = a.takeWhile isTokenChar := by
  induction a with
  | nil => exact h.not_tokenChar
  | cons c a ih =>
    rw [List.cons_append, List.takeWhile_cons, List.takeWhile_cons, ih]

/-- A quote that is closed within a text is closed there in front of any other text. -/
theorem idxOf?_append {q : Char} {a : Text} {n : Nat} (h : a.idxOf? q = some n) (r : Text) :
    (a ++ r).idxOf? q = some n ∧ n < a.length := by
  rw [List.idxOf?] at h ⊢
  rw [List.findIdx?_append, h]
  exact ⟨rfl, (List.findIdx?_eq_some_iff_getElem.mp h).1⟩

/-- A token that a text starts with stays the same in front of a text that does not go on with it. -/
theorem token?_append {c : Char} {a r : Text} {t : Token} {n : Nat} (h : token? c a = some (t, n)) (hr : Ends r) :
    token? c (a ++ r) = some (t, n) ∧ n ≤ a.length := by
  unfold token? at h ⊢
  split at h
  · next hc =>
    rw [if_pos hc, takeWhile_append_of_ends hr]
    refine ⟨h, ?_⟩
    obtain ⟨t', -, ht⟩ := Option.map_eq_some_iff.mp h
    rw [← (Prod.mk.inj ht).2]
    exact (List.takeWhile_sublist _).length_le
  · next hc =>
    rw [if_neg hc]
    have hsymbol : ∀ {t' : Token} {k : Nat}, some (t', k) = some (t, n) → k ≤ a.length → some (t', k) = some (t, n) ∧
        n ≤ a.length := fun h hk => ⟨h, by rwa [← (Prod.mk.inj (Option.some.inj h)).2]⟩
    split at h
    · exact hsymbol h (Nat.zero_le _)
    · exact hsymbol h (Nat.zero_le _)
    · exact hsymbol h (Nat.succ_le_succ (Nat.zero_le _))
    · exact hsymbol h (Nat.zero_le _)
    · exact hsymbol h (Nat.zero_le _)
    · split at h
      · cases h
      · next hdash =>
        have hdash' : (a ++ r).head? ≠ some '-' := by
          cases a with
          | nil => exact hr.not_dash
          | cons d a => exact hdash
        rw [if_neg hdash']
        exact hsymbol h (Nat.zero_le _)
    · obtain ⟨k, hk, hkt⟩ := Option.map_eq_some_iff.mp h
      obtain ⟨hk', hlt⟩ := idxOf?_append hk r
      rw [hk', Option.map_some, List.take_append_of_le_length (Nat.le_of_lt hlt)]
      exact hsymbol (congrArg some hkt) hlt
    · obtain ⟨k, hk, hkt⟩ := Option.map_eq_some_iff.mp h
      obtain ⟨hk', hlt⟩ := idxOf?_append hk r
      rw [hk', Option.map_some, List.take_append_of_le_length hlt]
      exact hsymbol (congrArg some hkt) hlt
    · cases h

/-- The tokens of neighbouring texts make up the tokens of both. -/
theorem lex_append {a r : Text} {ts : List Token} (h : lex a = some ts) (hr : Ends r) :
    lex (a ++ r) = (lex r).map (ts ++ ·) := by
  fun_induction lex a generalizing ts with
  | case1 => simp [← Option.some.inj h]
  | case2 c rest hc ih =>
    rw [List.cons_append, lex, if_pos hc]
    exact ih h
  | case3 => cases h
  | case4 c rest hc t n ht ih =>
    obtain ⟨us, hus, rfl⟩ := Option.map_eq_some_iff.mp h
    obtain ⟨ht', hn⟩ := token?_append ht hr
    rw [List.cons_append, lex, if_neg hc, ht']
    simp only
    rw [List.drop_append_of_le_length hn, ih hus, Option.map_map]
    rfl

/-! ## Single tokens -/

theorem lex_single {c : Char} {t : Token} {x : Text} (hb : isBlank c = false) (h : token? c x = some (t, 0)) :
    lex (c :: x) = (lex x).map (t :: ·) := by
  rw [lex, if_neg (by simp [hb]), h]
  rfl

theorem lex_blank {c : Char} (h : isBlank c = true) (x : Text) : lex (c :: x) = lex x := by
  rw [lex, if_pos h]

theorem lex_opening (x : Text) : lex ('(' :: x) = (lex x).map (.opening :: ·) := lex_single rfl rfl

theorem lex_closing (x : Text) : lex (')' :: x) = (lex x).map (.closing :: ·) := lex_single rfl rfl

theorem lex_minus {x : Text} (h : x.head? ≠ some '-') : lex ('-' :: x) = (lex x).map (.minus :: ·) := by
  apply lex_single rfl
  have hchar : isTokenChar '-' = false := by decide
  simp [token?, hchar, h]

theorem token?_word {c : Char} (hc : isTokenChar c = true) (rest : Text) :
    token? c rest = (word? (c :: rest.takeWhile isTokenChar)).map (·, (rest.takeWhile isTokenChar).length) := by
  unfold token?
  rw [if_pos hc]

theorem isBlank_of_isTokenChar {c : Char} (h : isTokenChar c = true) : isBlank c = false := by
  rw [Bool.eq_false_iff]
  intro hb
  simp only [isBlank, Bool.or_eq_true, decide_eq_true_eq] at hb
  rcases hb with (((rfl | rfl) | rfl) | rfl) | rfl
  all_goals cases h

/-- A run of word characters and points is a token. -/
theorem lex_word {a : Text} (h : ∀ c ∈ a, isTokenChar c = true) (hne : a ≠ []) : lex a = (word? a).map ([·]) := by
  obtain ⟨c, x, rfl⟩ := List.exists_cons_of_ne_nil hne
  have hx : x.takeWhile isTokenChar = x := by
    have hall : (x ++ []).takeWhile isTokenChar = x ++ [].takeWhile isTokenChar :=
      List.takeWhile_append_of_pos fun d hd => h d (List.mem_cons_of_mem c hd)
    rwa [List.append_nil, List.takeWhile_nil, List.append_nil] at hall
  have hc := h c List.mem_cons_self
  rw [lex, if_neg (by simp [isBlank_of_isTokenChar hc]), token?_word hc, hx]
  cases word? (c :: x) with
  | none => rfl
  | some t => simp [lex]

section Spelled

variable {p : Amount} {a : Text}

theorem reads_amount (p : Amount) : expression 0 p.tokens = some (p.expr, []) := by
  have h := expression_amount p (looser_nil 1)
  rw [List.append_nil, further] at h
  exact h

theorem Spells.ne_nil (h : Spells p a) : a ≠ [] := by
  rintro rfl
  rw [Spells, lex] at h
  have hread := reads_amount p
  rw [← Option.some.inj h] at hread
  simp [expression, operand] at hread

/-- A sum of a single token has the value of that token. -/
theorem value_of_token {t : Token} {x : Expr} (h : p.tokens = [t]) (ht : operand [t] = some (x, []))
    (names : Text → Int) : evaluate names x = some (.integer (p.value names)) := by
  have hread := reads_amount p
  rw [h, expression_of_operand ht (by simp), further] at hread
  rw [← evaluate_amount names p, (Prod.mk.inj (Option.some.inj hread)).1]

/-- A sum that is written as a run of word characters and points is a number or a name. -/
theorem Spells.word (h : Spells p a) (hword : ∀ c ∈ a, isTokenChar c = true) :
    ∃ t, word? a = some t ∧ p.tokens = [t] := by
  have hlex := lex_word hword h.ne_nil
  rw [h] at hlex
  obtain ⟨t, ht, htokens⟩ := Option.map_eq_some_iff.mp hlex.symm
  exact ⟨t, ht, htokens.symm⟩

end Spelled

/-! ## Integers in decimal -/

theorem value_toDigits (n : Nat) : Decimal.value (Nat.toDigits 10 n) = n := by
  have h := Nat.ofDigitChars_ten_toDigits (n := n)
  rw [Nat.ofDigitChars_eq_foldl] at h
  exact h

theorem isDigits_toDigits (n : Nat) : Decimal.isDigits (Nat.toDigits 10 n) = true := by
  have hall : (Nat.toDigits 10 n).all Char.isDigit = true := by
    rw [List.all_eq_true]
    exact fun c hc => Nat.isDigit_of_mem_toDigits (by decide) (by decide) hc
  have hne := Nat.toDigits_ne_nil (n := n) (b := 10)
  simp [Decimal.isDigits, hall, hne]

/-- An integer in decimal is read back as that integer. -/
theorem integer?_decimal (n : Int) : Decimal.integer? (decimal n) = some n := by
  have hdigits := isDigits_toDigits n.natAbs
  have hvalue := value_toDigits n.natAbs
  unfold decimal
  split
  · simp only [Decimal.integer?, Decimal.splitSign, hdigits, if_true, hvalue]
    congr 1
    omega
  · rw [Decimal.integer?_ofDigits hdigits, hvalue]
    congr 1
    omega

/-- An offset is read up to the blank in front of its unit. -/
theorem offset?_text {number unit : Text} {n : Int} (hn : ' ' ∉ number) (h : Decimal.integer? number = some n) :
    offset? (.text (number ++ ' ' :: unit)) = some (n, unit) := by
  have hne : ∀ c ∈ number, decide (c ≠ ' ') = true := by
    intro c hc
    rw [decide_eq_true_eq]
    rintro rfl
    exact hn hc
  have htake : (number ++ ' ' :: unit).takeWhile (· ≠ ' ') = number := by
    rw [List.takeWhile_append_of_pos hne]
    simp
  have hdrop : (number ++ ' ' :: unit).dropWhile (· ≠ ' ') = ' ' :: unit := by
    rw [List.dropWhile_append_of_pos hne]
    simp
  simp only [offset?, htake, hdrop, h]
  rfl

theorem not_mem_toDigits {c : Char} (hc : c.isDigit = false) (n : Nat) : c ∉ Nat.toDigits 10 n := by
  intro hm
  rw [Nat.isDigit_of_mem_toDigits (by decide) (by decide) hm] at hc
  cases hc

theorem decimal_natCast (n : Nat) : decimal n = Nat.toDigits 10 n := by
  have h : ¬ (n : Int) < 0 := by omega
  rw [decimal, if_neg h, Int.natAbs_natCast]

/-- An integer in decimal with a unit behind it. -/
theorem offset?_decimal (n : Int) (unit : Text) : offset? (.text (decimal n ++ ' ' :: unit)) = some (n, unit) := by
  refine offset?_text ?_ (integer?_decimal n)
  have h := not_mem_toDigits (c := ' ') (by decide) n.natAbs
  unfold decimal
  split <;> simp [h]

end SqlDialect.Arithmetic
