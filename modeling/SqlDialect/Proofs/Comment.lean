import SqlDialect.Comment
import SqlDialect.Proofs.Trim

/-!
# Line comments as blocks

Every piece of a text stays a piece of the converted text, and a `#` comment becomes one block comment, which ends at
the `*/` written for it: the body holds no `*/` any more, and no character in front of a block reaches into it.

* `breakEnds_intercalate`: every `*/` of a body is taken apart.
* `blockLength_breakEnds`: a block ends behind its body.
* `pieces_convert`: the pieces of a converted text.
* `convert_exact`: the conversion replaces the `#` comments, nothing else, and a second one changes nothing.
-/

namespace SqlDialect.Comment

/-! ## Bodies -/

/-- The first character of a body stays. -/
theorem head?_breakEnds (body : Text) : (breakEnds body).head? = body.head? := by
  fun_cases breakEnds body <;> rfl

/-- Only blanks are put into a body. -/
theorem mem_breakEnds {body : Text} {c : Char} (h : c ∈ breakEnds body) : c ∈ body ∨ c = ' ' := by
  fun_induction breakEnds body with
  | case1 rest ih =>
    rcases List.mem_cons.mp h with rfl | h
    · exact Or.inl (by simp)
    rcases List.mem_cons.mp h with rfl | h
    · exact Or.inr rfl
    rcases List.mem_cons.mp h with rfl | h
    · exact Or.inl (by simp)
    · exact (ih h).imp_left fun h => List.mem_cons_of_mem _ (List.mem_cons_of_mem _ h)
  | case2 d rest _ ih =>
    rcases List.mem_cons.mp h with rfl | h
    · exact Or.inl List.mem_cons_self
    · exact (ih h).imp_left (List.mem_cons_of_mem _)
  | case3 => cases h

theorem count_breakEnds {c : Char} (hc : c ≠ ' ') (body : Text) : (breakEnds body).count c = body.count c := by
  fun_induction breakEnds body with
  | case1 rest ih => simp [List.count_cons, ih, Ne.symm hc]
  | case2 d rest _ ih => simp [List.count_cons, ih]
  | case3 => rfl

theorem breakEnds_append (a b : Text) :
    breakEnds (a ++ '*' :: '/' :: b) = breakEnds a ++ '*' :: ' ' :: '/' :: breakEnds b := by
  fun_induction breakEnds a with
  | case1 a ih => simp [breakEnds, ih]
  | case2 c a hc ih =>
    rw [List.cons_append, breakEnds, ih, List.cons_append]
    -- what stands behind `c` starts as `a` does, or with the star
    intro t hstar ht
    cases a with
    | nil => cases ht
    | cons d a => exact hc a hstar (by rw [(List.cons.inj ht).1])
  | case3 => rfl

theorem breakEnds_of_not_infix {body : Text} (h : ¬ ['*', '/'] <:+: body) : breakEnds body = body := by
  fun_induction breakEnds body with
  | case1 rest ih => exact absurd ⟨[], rest, rfl⟩ h
  | case2 c rest hc ih => rw [ih fun hrest => h (hrest.trans (List.suffix_cons c rest).isInfix)]
  | case3 => rfl

/-- **Every `*/` of a body becomes `* /`**, and the parts between them stay. -/
theorem breakEnds_intercalate {parts : List Text} (h : ∀ part ∈ parts, ¬ ['*', '/'] <:+: part) :
    breakEnds (List.intercalate ['*', '/'] parts) = List.intercalate ['*', ' ', '/'] parts := by
  induction parts with
  | nil => rfl
  | cons part parts ih =>
    rw [List.forall_mem_cons] at h
    cases parts with
    | nil => rw [List.intercalate_singleton, List.intercalate_singleton, breakEnds_of_not_infix h.1]
    | cons next parts =>
      rw [List.intercalate_cons_cons, List.intercalate_cons_cons, ← ih h.2, List.append_assoc, List.cons_append,
        List.singleton_append, breakEnds_append, breakEnds_of_not_infix h.1, List.append_assoc]
      rfl

/-- A block ends behind its body: no `*/` is left in the body, and its last character makes none with the end. -/
theorem blockLength_breakEnds (body rest : Text) :
    blockLength (breakEnds body ++ '*' :: '/' :: rest) = (breakEnds body).length + 2 := by
  fun_induction breakEnds body with
  | case1 body ih => simp [blockLength, ih]
  | case2 c body hc ih =>
    rw [List.cons_append, blockLength, ih, List.length_cons, Nat.add_right_comm]
    intro t hstar ht
    -- what stands behind `c` starts with the body or with the end of the block
    have hhead : (breakEnds body ++ '*' :: '/' :: rest).head? = body.head?.or (some '*') := by
      rw [List.head?_append, head?_breakEnds]
      rfl
    rw [ht] at hhead
    cases body with
    | nil => simp at hhead
    | cons d body =>
      simp only [List.head?_cons, Option.some_or, Option.some.injEq] at hhead
      exact hc body hstar (by rw [hhead])
  | case3 => simp [blockLength]

/-! ## The pieces of a converted text -/

/-- The body of a line comment, and the carriage return that ends it if there is one. -/
def cutReturn (body : Text) : Text × Text :=
  if body.getLast? = some '\r' then (body.dropLast, ['\r']) else (body, [])

theorem cutReturn_append (body : Text) : (cutReturn body).1 ++ (cutReturn body).2 = body := by
  unfold cutReturn
  split
  · next h =>
    obtain ⟨init, rfl⟩ := List.getLast?_eq_some_iff.mp h
    simp
  · exact List.append_nil body

/-- The pieces that a piece becomes: a region that starts with `#` becomes a block comment, and a carriage return at
its end is left behind the block. -/
def rewritten : Piece → List Piece
  | .region _ ('#' :: body) =>
    .region .comment ("/*".toList ++ breakEnds (cutReturn body).1 ++ "*/".toList) :: (cutReturn body).2.map .code
  | p => [p]

theorem block_eq (body : Text) :
    block body = "/*".toList ++ breakEnds (cutReturn body).1 ++ "*/".toList ++ (cutReturn body).2 := by
  unfold block cutReturn
  split <;> simp

theorem convert_code {c : Char} {rest : Text} (h : regionTail? c rest = none) :
    convert (c :: rest) = c :: convert rest := by
  rw [convert, pieces_code h]
  rfl

theorem convert_region {c : Char} {rest : Text} {kind : RegionKind} {n : Nat}
    (h : regionTail? c rest = some (kind, n)) :
    convert (c :: rest) = convertPiece (.region kind (c :: rest.take n)) ++ convert (rest.drop n) := by
  rw [convert, pieces_region h]
  rfl

/-- A region that starts with `#` is a comment. -/
theorem regionTail?_hash (rest : Text) : regionTail? '#' rest = some (.comment, lineLength rest) := rfl

/-- A region that does not start with `#` stays as it is. -/
theorem convertPiece_of_ne {c : Char} (hc : c ≠ '#') (kind : RegionKind) (t : Text) :
    convertPiece (.region kind (c :: t)) = c :: t := by
  unfold convertPiece
  split
  · next heq => cases heq; exact absurd rfl hc
  · rfl

theorem rewritten_of_ne {c : Char} (hc : c ≠ '#') (kind : RegionKind) (t : Text) :
    rewritten (.region kind (c :: t)) = [.region kind (c :: t)] := by
  unfold rewritten
  split
  · next heq => cases heq; exact absurd rfl hc
  · rfl

/-- Only the mark of a line comment changes at the start of a text. -/
theorem head?_convert (text : Text) : (convert text).head? = text.head?.map fun c => if c = '#' then '/' else c := by
  cases text with
  | nil => simp [convert]
  | cons c rest =>
    by_cases hc : c = '#'
    · subst hc
      rw [convert_region (regionTail?_hash rest)]
      simp only [convertPiece, block_eq]
      rfl
    · cases hr : regionTail? c rest with
      | none => simp [convert_code hr, hc]
      | some tail =>
        obtain ⟨kind, n⟩ := tail
        simp [convert_region hr, convertPiece_of_ne hc, hc]

/-- The conversion writes no quote. -/
theorem mem_of_mem_convert {q : Char} (hq : isQuote q = true) {text : Text} (h : q ∈ convert text) : q ∈ text := by
  obtain ⟨p, hp, hm⟩ := List.mem_flatMap.mp h
  rw [← textOf_pieces text]
  refine List.mem_flatMap.mpr ⟨p, hp, ?_⟩
  unfold convertPiece at hm
  split at hm
  · next body =>
    rw [Piece.text, ← cutReturn_append body]
    rw [block_eq] at hm
    have hne : ∀ d, isQuote d = false → q ≠ d := fun d hd e => by rw [e, hd] at hq; cases hq
    simp only [List.mem_append, List.mem_cons] at hm ⊢
    rcases hm with ((hm | hm) | hm) | hm
    · exact absurd hm (by simp [hne '/' rfl, hne '*' rfl])
    · rcases mem_breakEnds hm with hm | hm
      · exact Or.inr (Or.inl hm)
      · exact absurd hm (hne ' ' rfl)
    · exact absurd hm (by simp [hne '/' rfl, hne '*' rfl])
    · exact Or.inr (Or.inr hm)
  · exact hm

/-- Behind two dashes that open no comment, the conversion writes no blank. -/
theorem second_convert {rest : Text} (h : rest.head?.all isBlank = false) :
    (convert ('-' :: rest)).tail.head?.all isBlank = false := by
  cases rest with
  | nil => cases h
  | cons d rest =>
    cases hr : regionTail? '-' (d :: rest) with
    | none =>
      rw [convert_code hr, List.tail_cons, head?_convert]
      simp only [List.head?_cons, Option.map_some, Option.all_some] at h ⊢
      split
      · rfl
      · exact h
    | some kn =>
      obtain ⟨kind, n⟩ := kn
      -- three dashes: the second and the third may open a comment
      rcases regionTail?_cases hr with ⟨-, hl⟩ | ⟨-, hc⟩
      · cases hl
      · obtain ⟨m, rfl⟩ := Nat.exists_eq_succ_of_ne_zero (Nat.pos_iff_ne_zero.mp (dash_of_commentTail? hc).2)
        rw [convert_region hr, convertPiece_of_ne (by decide)]
        exact h

/-- What is code stays code: a block that follows is opened by `/`, which makes no comment with the character in
front of it, and no quote finds a new partner. -/
theorem regionTail?_convert {c : Char} {rest : Text} (h : regionTail? c rest = none) :
    regionTail? c (convert rest) = none := by
  rw [regionTail?_eq_none_iff, literalTail?_eq_none_iff, commentTail?_eq_none_iff] at h ⊢
  obtain ⟨hquote, hhash, hslash, hdash⟩ := h
  have hhead : ∀ {d : Char}, d ≠ '/' → (convert rest).head? = some d → rest.head? = some d := fun {d} hd hh => by
    rw [head?_convert] at hh
    obtain ⟨e, he, hmark⟩ := Option.map_eq_some_iff.mp hh
    split at hmark
    · exact absurd hmark.symm hd
    · rw [he, hmark]
  refine ⟨fun hq hm => hquote hq (mem_of_mem_convert hq hm), hhash, fun hc hh => ?_, fun hc hh => ?_⟩
  · exact hslash hc (hhead (by decide) hh)
  · have hd := hhead (by decide) hh
    obtain ⟨d, rest, rfl⟩ := List.exists_cons_of_ne_nil (l := rest) (by rintro rfl; cases hd)
    cases hd
    exact second_convert (hdash hc rfl)

/-- A region is read in front of the converted text as in front of the text. -/
theorem regionTail?_before_convert {c : Char} {rest : Text} {kind : RegionKind} {n : Nat}
    (h : regionTail? c rest = some (kind, n)) :
    regionTail? c (rest.take n ++ convert (rest.drop n)) = some (kind, n) := by
  have hlen : (rest.take n).length = n := by
    rw [List.length_take, Nat.min_eq_left (lt_of_regionTail? h)]
  generalize ha : rest.take n = a at hlen ⊢
  generalize hr : rest.drop n = r
  rw [← List.take_append_drop n rest, ha, hr] at h
  cases r with
  | nil => simpa [convert] using h
  | cons d r =>
    by_cases hd : d = '\n'
    · -- the line end belongs to what the region is read in front of
      subst hd
      rw [convert_code (regionTail?_of_isSpace (by decide) r), List.append_cons] at *
      cases r with
      | nil => simpa [convert] using h
      | cons e r => exact regionTail?_append h (by simp [hlen]) (by simp) (fun _ _ hn => by simp [hlen] at hn) _
    · exact regionTail?_append h (Nat.le_of_eq hlen.symm) (by simp) (fun _ _ _ => by simpa using hd) _

/-- The block written for a comment is one region, and what is written behind it is read as by itself. -/
theorem pieces_block (body rest : Text) :
    pieces (block body ++ rest) = rewritten (.region .comment ('#' :: body)) ++ pieces rest := by
  have hreturn : ∀ c ∈ (cutReturn body).2, isSpace c = true := by
    unfold cutReturn
    split
    · simp only [List.mem_singleton, forall_eq]
      decide
    · simp
  have hr : regionTail? '/' ('*' :: breakEnds (cutReturn body).1 ++ "*/".toList ++ ((cutReturn body).2 ++ rest)) =
      some (.comment, ('*' :: breakEnds (cutReturn body).1 ++ "*/".toList).length) := by
    have hblock := blockLength_breakEnds (cutReturn body).1 ((cutReturn body).2 ++ rest)
    rw [regionTail?, literalTail?, if_neg (by decide)]
    simp [commentTail?, hblock]
  have hsplit : block body ++ rest =
      '/' :: ('*' :: breakEnds (cutReturn body).1 ++ "*/".toList ++ ((cutReturn body).2 ++ rest)) := by
    rw [block_eq]
    simp
  rw [hsplit, pieces_region hr, List.take_left, List.drop_left, pieces_spaces hreturn]
  rfl

/-- **The pieces of a converted text.** Every region that starts with `#` becomes one block comment, all other pieces
stay. -/
theorem pieces_convert (text : Text) : pieces (convert text) = (pieces text).flatMap rewritten := by
  fun_induction pieces text with
  | case1 => simp [convert]
  | case2 c rest kind n hr ih =>
    rw [convert_region hr, List.flatMap_cons, ← ih]
    by_cases hc : c = '#'
    · subst hc
      rw [regionTail?_hash] at hr
      cases hr
      exact pieces_block _ _
    · have hlen : (rest.take n).length = n := by
        rw [List.length_take, Nat.min_eq_left (lt_of_regionTail? hr)]
      rw [convertPiece_of_ne hc, rewritten_of_ne hc, List.cons_append, pieces_region (regionTail?_before_convert hr),
        List.take_left' hlen, List.drop_left' hlen]
      rfl
  | case3 c rest hr ih =>
    rw [convert_code hr, List.flatMap_cons, ← ih, pieces_code (regionTail?_convert hr)]
    rfl

/-- A converted text has no region that starts with `#`. -/
theorem ne_hash_of_mem {text t : Text} {kind : RegionKind} (h : .region kind t ∈ pieces (convert text)) :
    t.head? ≠ some '#' := by
  rw [pieces_convert] at h
  obtain ⟨p, -, hp⟩ := List.mem_flatMap.mp h
  unfold rewritten at hp
  split at hp
  · next body =>
    rcases List.mem_cons.mp hp with hp | hp
    · cases hp
      simp
    · obtain ⟨c, -, hc⟩ := List.mem_map.mp hp
      cases hc
  · next hne =>
    rw [List.mem_singleton] at hp
    subst hp
    intro hhead
    obtain ⟨body, rfl⟩ := List.head?_eq_some_iff.mp hhead
    exact hne kind body rfl

/-- A character that marks no comment is neither lost nor added. -/
theorem count_convert {c : Char} (hc : c ∉ [' ', '#', '/', '*']) (text : Text) :
    (convert text).count c = text.count c := by
  have hne : ∀ d ∈ [' ', '#', '/', '*'], d ≠ c := fun d hd e => hc (e ▸ hd)
  have hspace := hne ' ' (by decide)
  have hhash := hne '#' (by decide)
  have hslash := hne '/' (by decide)
  have hstar := hne '*' (by decide)
  have hpiece : ∀ p : Piece, (convertPiece p).count c = p.text.count c := by
    intro p
    unfold convertPiece
    split
    · next body =>
      conv => rhs; rw [Piece.text, ← cutReturn_append body]
      simp [block_eq, List.count_append, count_breakEnds hspace.symm, hhash, hslash, hstar]
    · rfl
  conv => rhs; rw [← textOf_pieces text]
  rw [convert, textOf]
  induction pieces text with
  | nil => rfl
  | cons p ps ih => rw [List.flatMap_cons, List.flatMap_cons, List.count_append, List.count_append, hpiece, ih]

/-- No line is joined or parted. -/
theorem count_newline_convert (text : Text) : (convert text).count '\n' = text.count '\n' :=
  count_convert (by decide) text

/-- **The conversion is exact.** The converted text is the text with every region that starts with `#` in its new form
and all other pieces as they were, and it is read so: each new block is one comment and no region starts with `#`. A
second conversion changes nothing, and the lines stay. -/
theorem convert_exact (text : Text) :
    convert text = textOf ((pieces text).flatMap rewritten) ∧
      pieces (convert text) = (pieces text).flatMap rewritten ∧
      (∀ kind t, .region kind t ∈ pieces (convert text) → t.head? ≠ some '#') ∧
      convert (convert text) = convert text ∧ (convert text).count '\n' = text.count '\n' := by
  refine ⟨?_, pieces_convert text, fun kind t h => ne_hash_of_mem h, ?_, count_newline_convert text⟩
  · rw [← pieces_convert, textOf_pieces]
  · exact convert_eq_self fun body h => ne_hash_of_mem h rfl

example : (let text := "a --# b*/ it's *\r\nc".toList
    pieces (convert text) = "a --".toList.map .code ++ [.region .comment "/* b* / it's **/".toList] ++
      "\r\nc".toList.map .code) := by decide +kernel

end SqlDialect.Comment
