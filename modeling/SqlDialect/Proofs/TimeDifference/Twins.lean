import SqlDialect.Proofs.Twins
import SqlDialect.Proofs.TimeDifference.Step

/-!
# Two conversions in step

The conversion of TIMESTAMPDIFF calls runs alike on two texts without comments that differ within literals: it comes to
the same calls, refuses both texts for causes of one kind or neither, and leaves texts that again differ within
literals. The arguments change places, and their literals with them.

* `read_similar`: calls with similar arguments are refused for causes of one kind, or have similar timestamps.
* `parenthesis_twins`: similar texts behind a parenthesis are closed alike.
* `convertFrom_twins`: both conversions, step by step.
-/

namespace SqlDialect

open Text

/-- Two stages refuse their texts for causes of the same kind, or their results are related. -/
inductive SameOutcome {α : Type} (R : α → α → Prop) : Except StageError α → Except StageError α → Prop where
  | error {e e' : StageError} : e.kind = e'.kind → SameOutcome R (.error e) (.error e')
  | ok {x y : α} : R x y → SameOutcome R (.ok x) (.ok y)

theorem SameOutcome.mono {α : Type} {R S : α → α → Prop} {x y : Except StageError α} (h : SameOutcome R x y)
    (hrs : ∀ a b, R a b → S a b) : SameOutcome S x y := by
  cases h with
  | error he => exact .error he
  | ok hr => exact .ok (hrs _ _ hr)

namespace TimeDifference

theorem isQuote_functionName : ∀ c ∈ functionName, isQuote c = false := by decide +kernel

/-! ## The arguments -/

/-- The timestamps are similar. -/
def SimilarTimes (d d' : TimeDifference) : Prop := Similar d.first d'.first ∧ Similar d.last d'.last

theorem SimilarTimes.render {d d' : TimeDifference} (h : SimilarTimes d d') : Similar d.render d'.render := by
  have hopening : Similar opening opening := .refl (by decide +kernel)
  have hmiddle : Similar middle middle := .refl (by decide +kernel)
  have hclosing : Similar closing closing := .refl (by decide +kernel)
  exact (((hopening.append h.2).append hmiddle).append h.1).append hclosing

/-- **Reading two calls** whose arguments are similar. -/
theorem read_similar {call call' a b : Text} (h : List.Forall₂ Similar (splitTopLevel a ',') (splitTopLevel b ',')) :
    SameOutcome SimilarTimes (read call a) (read call' b) := by
  rw [read, read]
  generalize splitTopLevel a ',' = xs at h ⊢
  generalize splitTopLevel b ',' = ys at h ⊢
  by_cases hthree : ∃ u f l, xs = [u, f, l]
  · obtain ⟨u, f, l, rfl⟩ := hthree
    rcases h with _ | @⟨_, u', _, _, hu, _ | @⟨_, f', _, _, hf, _ | @⟨_, l', _, _, hl, _ | _⟩⟩⟩
    have hempty : ((trim f).isEmpty || (trim l).isEmpty) = ((trim f').isEmpty || (trim l').isEmpty) := by
      rw [Bool.eq_iff_iff]
      simp only [Bool.or_eq_true, List.isEmpty_iff, hf.trim.eq_nil_iff, hl.trim.eq_nil_iff]
    have hunit : same (trim u) unitName = same (trim u') unitName := hu.trim.same (by decide +kernel)
    simp only [hempty, hunit]
    split
    · exact .error rfl
    · split
      · exact .ok ⟨hf.trim, hl.trim⟩
      · exact .error rfl
  · have hlen := h.length_eq
    have hthree' : ∀ u f l, ys ≠ [u, f, l] := fun u f l hy => by
      rw [hy] at hlen
      exact hthree (List.length_eq_three.mp hlen)
    split
    · exact absurd ⟨_, _, _, rfl⟩ hthree
    · exact .error (by rw [StageError.kind, StageError.kind, hlen])

/-- **Similar texts behind a parenthesis** are both closed or both not, and their arguments are similar. -/
theorem parenthesis_twins {a b : Text} (h : Twins (pieces a) (pieces b)) :
    closingIn ['('] a = none ∧ closingIn ['('] b = none ∨
      ∃ n m, closingIn ['('] a = some n ∧ closingIn ['('] b = some m ∧
        List.Forall₂ Similar (splitTopLevel (a.take n) ',') (splitTopLevel (b.take m) ',') ∧
        Similar (a.drop (n + 1)) (b.drop (m + 1)) := by
  rcases h.closingIn with hnone | ⟨qs, d, rs, qs', rs', ha, hb, hqs, hrs, hnest, hd, hn, hm⟩
  · exact .inl hnone
  · obtain rfl := eq_of_openerOf? hd
    refine .inr ⟨_, _, hn, hm, ?_, ?_⟩
    · have hparts : ∀ {t : Text} {ps us : List Piece}, pieces t = ps ++ .code ')' :: us → nest [] ps = some [] →
          splitPieces ',' 0 (pieces (t.take (textOf ps).length)) = splitPieces ',' 0 ps := fun ht hps => by
        rw [take_of_pieces ht rfl]
        exact splitPieces_of_reads (reads_parenthesis (Reads.of_pieces ht) hps) (by decide)
      have hsplit := hqs.splitPieces ',' 0
      rw [splitTopLevel, splitTopLevel, hparts ha hnest, hparts hb (hqs.nest [] ▸ hnest)]
      exact .cons hsplit.1 hsplit.2
    · have hbehind : ∀ {t : Text} {ps us : List Piece}, pieces t = ps ++ .code ')' :: us →
          t.drop ((textOf ps).length + 1) = textOf us := fun {t ps us} ht => by
        have hcut : pieces t = (ps ++ [.code ')']) ++ us := by rw [ht, List.append_assoc]; rfl
        exact drop_of_pieces hcut (by simp [Piece.text])
      rw [hbehind ha, hbehind hb]
      exact hrs.similar

/-! ## The conversion -/

section Call

variable {done rest inner : Text} {n : Nat} (hk : findKeyword functionName done.getLast? rest = some n)
  (ha : (rest.drop (n + functionName.length)).dropWhile isBlank = '(' :: inner)

include hk ha

theorem convertFrom_unclosed (hc : closingIn ['('] inner = none) :
    convertFrom done rest = .error ⟨.callUnterminated, rest.drop n⟩ := by
  rw [convertFrom_parenthesis hk ha, convertCall, behindParenthesis, List.drop_drop, ha, List.tail_cons, hc]

theorem convertFrom_closed {k : Nat} (hc : closingIn ['('] inner = some k) :
    ∃ call, convertFrom done rest =
      match read call (inner.take k) with
      | .error e => .error e
      | .ok d => convertFrom (done ++ rest.take n) (d.render ++ inner.drop (k + 1)) := by
  rw [convertFrom_parenthesis hk ha, convertCall, behindParenthesis, List.drop_drop, ha, List.tail_cons, hc]
  exact ⟨_, rfl⟩

end Call

section InStep

variable {done rest done' rest' : Text} {ps : List Piece} (hr : Reads done rest ps)
  (hc : ∀ t, .region .comment t ∉ pieces (done ++ rest)) (hdone : Similar done done') (hrest : Similar rest rest')

include hr hc hdone hrest

/-- The name is found in both texts or in neither. -/
theorem findName_twins :
    findKeyword functionName done.getLast? rest = none ∧ findKeyword functionName done'.getLast? rest' = none ∨
      ∃ n m, findKeyword functionName done.getLast? rest = some n ∧
        findKeyword functionName done'.getLast? rest' = some m ∧ Similar (rest.take n) (rest'.take m) ∧
        Similar (rest.take (n + functionName.length)) (rest'.take (m + functionName.length)) ∧
        Similar (rest.drop (n + functionName.length)) (rest'.drop (m + functionName.length)) := by
  have hcr : ∀ t, .region .comment t ∉ pieces rest := fun t ht => hc t (by rw [hr]; exact List.mem_append_right _ ht)
  rw [← hdone.getLast?]
  exact (hrest.twins hcr).findKeyword isQuote_functionName _

/-- A name that is found is found in the other text too. -/
theorem found_twins {n : Nat} (hk : findKeyword functionName done.getLast? rest = some n) :
    ∃ m, findKeyword functionName done'.getLast? rest' = some m ∧ Similar (rest.take n) (rest'.take m) ∧
      Similar (rest.take (n + functionName.length)) (rest'.take (m + functionName.length)) ∧
      Similar (rest.drop (n + functionName.length)) (rest'.drop (m + functionName.length)) := by
  rcases findName_twins hr hc hdone hrest with ⟨hnone, -⟩ | ⟨n', m, hn, hm⟩
  · rw [hk] at hnone
    cases hnone
  · rw [hk, Option.some.injEq] at hn
    exact ⟨m, hn ▸ hm⟩

/-- A call that is found is found in the other text too. -/
theorem call_twins {n : Nat} {inner : Text} (hk : findKeyword functionName done.getLast? rest = some n)
    (ha : (rest.drop (n + functionName.length)).dropWhile isBlank = '(' :: inner) :
    ∃ m inner', findKeyword functionName done'.getLast? rest' = some m ∧
      (rest'.drop (m + functionName.length)).dropWhile isBlank = '(' :: inner' ∧
      Similar (rest.take n) (rest'.take m) ∧ Twins (pieces inner) (pieces inner') := by
  obtain ⟨m, hm, hfront, -, hbehind⟩ := found_twins hr hc hdone hrest hk
  have hparen := (hbehind.dropWhile fun _ => isBlank_of_isQuote).2
  rw [ha] at hparen
  obtain ⟨inner', hinner', hsimilar⟩ := hparen.tail (by decide)
  refine ⟨m, inner', hm, hinner', hfront, hsimilar.twins fun t ht => hc t ?_⟩
  obtain ⟨ms, v, x, hp, -, -, rfl⟩ := findKeyword_name hk
  rw [hr, hp, pieces_blanks ha]
  simp [ht]

/-- The conversion of the other text at a call that is closed. -/
theorem closed_twins {n close : Nat} {inner : Text} (hk : findKeyword functionName done.getLast? rest = some n)
    (ha : (rest.drop (n + functionName.length)).dropWhile isBlank = '(' :: inner)
    (hcl : closingOffset? ('(' :: inner) = some close) (call : Text) :
    ∃ m read' behind, SameOutcome SimilarTimes (read call (inner.take (close - 1))) read' ∧
      Similar (rest.take n) (rest'.take m) ∧ Similar (inner.drop close) behind ∧
      convertFrom done' rest' =
        match read' with
        | .error e => .error e
        | .ok d => convertFrom (done' ++ rest'.take m) (d.render ++ behind) := by
  obtain ⟨m, inner', hm, ha', hfront, hinner⟩ := call_twins hr hc hdone hrest hk ha
  rw [closingOffset?_parenthesis] at hcl
  obtain ⟨k, hk', rfl⟩ := Option.map_eq_some_iff.mp hcl
  rcases parenthesis_twins hinner with ⟨hnone, -⟩ | ⟨i, j, hi, hj, hparts, hbehind⟩
  · rw [hk'] at hnone
    cases hnone
  · rw [hk', Option.some.injEq] at hi
    subst hi
    obtain ⟨call', hconvert⟩ := convertFrom_closed hm ha' hj
    exact ⟨m, _, _, read_similar hparts, hfront, hbehind, hconvert⟩

end InStep

/-- **Two conversions in step.** -/
theorem convertFrom_twins {done rest done' rest' : Text} {ps : List Piece} (hr : Reads done rest ps)
    (hc : ∀ t, .region .comment t ∉ pieces (done ++ rest)) (hdone : Similar done done') (hrest : Similar rest rest') :
    SameOutcome (fun a b => Twins (pieces a) (pieces b)) (convertFrom done rest) (convertFrom done' rest') := by
  fun_induction convertFrom done rest generalizing done' rest' ps with
  | case1 done rest hk =>
    rcases findName_twins hr hc hdone hrest with ⟨-, hnone⟩ | ⟨n, _, hn, -⟩
    · rw [findKeyword_eq_firstIn] at hnone
      rw [convertFrom_of_none (firstIn_eq_none_of_imp (fun _ _ => startsKeyword_of_startsCall) hnone)]
      exact .ok ((hdone.append hrest).twins hc)
    · rw [hk] at hn
      cases hn
  | @case2 done rest n hk after inner ha hcl =>
    obtain ⟨m, inner', hm, ha', -, hinner⟩ := call_twins hr hc hdone hrest hk ha
    rw [closingOffset?_parenthesis, Option.map_eq_none_iff] at hcl
    rcases parenthesis_twins hinner with ⟨-, hnone⟩ | ⟨k, _, hk', -⟩
    · rw [convertFrom_unclosed hm ha' hnone]
      exact .error rfl
    · rw [hcl] at hk'
      cases hk'
  | @case3 done rest n hk after blanks inner ha close hcl call arguments e hd =>
    obtain ⟨m, read', behind, hread, -, -, hconvert⟩ := closed_twins hr hc hdone hrest hk ha hcl call
    rw [hd] at hread
    cases hread with
    | error he =>
      rw [hconvert]
      exact .error he
  | @case4 done rest n hk after blanks inner ha close hcl call arguments d hd ih =>
    obtain ⟨m, read', behind, hread, hfront, hbehind, hconvert⟩ := closed_twins hr hc hdone hrest hk ha hcl call
    obtain ⟨qs, hqs, hstep⟩ := call_pieces hr hc hk ha hcl hd
    rw [hd] at hread
    cases hread with
    | ok htimes =>
      rw [hconvert]
      exact ih hqs (hstep.no_comment hc) (hdone.append hfront) (htimes.render.append hbehind)
  | @case5 done rest n hk after hno ih =>
    obtain ⟨m, hm, -, hfront, hbehind⟩ := found_twins hr hc hdone hrest hk
    obtain ⟨htext, qs, hqs⟩ := bare_pieces hr hk
    have hbare : ((rest'.drop (m + functionName.length)).dropWhile isBlank).head? ≠ some '(' := fun he => by
      rw [← (hbehind.dropWhile fun _ => isBlank_of_isQuote).2.head?] at he
      obtain ⟨inner, hinner⟩ := List.head?_eq_some_iff.mp he
      exact hno inner hinner
    rw [convertFrom_bare hm hbare]
    exact ih hqs (by rwa [htext]) (hdone.append hfront) hbehind

/-- **The conversions of two texts** without comments that differ within literals. -/
theorem convert_twins {a b : Text} (h : Twins (pieces a) (pieces b)) (hc : ∀ t, .region .comment t ∉ pieces a) :
    SameOutcome (fun a b => Twins (pieces a) (pieces b)) (convert a) (convert b) := by
  have hsimilar := h.similar
  rw [textOf_pieces, textOf_pieces] at hsimilar
  exact convertFrom_twins (Reads.nil a) hc .nil hsimilar

end TimeDifference

end SqlDialect
