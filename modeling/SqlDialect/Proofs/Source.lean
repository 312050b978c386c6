import Mathlib.Data.List.Infix
import SqlDialect.StageError

/-!
# Where the characters of a text come from

A stage rewrites a statement step by step: it copies parts of the text that it has reached and adds characters of its
own between them. Carried along with each character, its position in the statement tells the two apart.

* `Faithful.append_added`: what is put together from copied parts with added characters between them stays faithful:
  where nothing is added, it is a part of the statement.
* `Leads.invariant`: what holds from step to step holds in the end.
* `Leads.answer_eq`: steps that agree with a conversion lead to its answer.
-/

namespace SqlDialect

/-! ## Characters with their source -/

/-- A character with its position in the statement, if it has been there and no rewrite has added it. -/
structure Sourced where
  char : Char
  source : Option Nat
  deriving DecidableEq, Repr

/-- The text that the characters make up. -/
def charsOf (M : List Sourced) : Text := M.map Sourced.char

/-- The characters of a part of the statement that starts at position `start`. -/
def sourcedFrom (start : Nat) : Text → List Sourced
  | [] => []
  | c :: rest => ⟨c, some start⟩ :: sourcedFrom (start + 1) rest

/-- The characters of a statement, each with its position. -/
def sourced (query : Text) : List Sourced := sourcedFrom 0 query

/-- Characters that a rewrite adds. -/
def added (t : Text) : List Sourced := t.map (⟨·, none⟩)

/-- The characters at position `i` that a rewrite copies, as many as the text `t` has. -/
def copied (M : List Sourced) (i : Nat) (t : Text) : List Sourced := (M.drop i).take t.length

/-- Has no rewrite added one of the characters? -/
def IsCopied (M : List Sourced) : Prop := ∀ c ∈ M, c.source.isSome = true

instance (M : List Sourced) : Decidable (IsCopied M) := List.decidableBAll _ M

@[simp] theorem charsOf_nil : charsOf [] = [] := rfl

@[simp] theorem charsOf_append (M N : List Sourced) : charsOf (M ++ N) = charsOf M ++ charsOf N := List.map_append

@[simp] theorem charsOf_take (M : List Sourced) (n : Nat) : charsOf (M.take n) = (charsOf M).take n := List.map_take

@[simp] theorem charsOf_drop (M : List Sourced) (n : Nat) : charsOf (M.drop n) = (charsOf M).drop n := List.map_drop

@[simp] theorem length_charsOf (M : List Sourced) : (charsOf M).length = M.length := List.length_map ..

@[simp] theorem charsOf_added (t : Text) : charsOf (added t) = t := by
  simp [charsOf, added, Function.comp_def]

@[simp] theorem charsOf_sourced (query : Text) : charsOf (sourced query) = query := by
  have hfrom : ∀ start, charsOf (sourcedFrom start query) = query := by
    induction query with
    | nil => exact fun _ => rfl
    | cons c query ih => exact fun start => congrArg (c :: ·) (ih (start + 1))
  exact hfrom 0

/-- What is copied is the text, if it stands there. -/
theorem charsOf_copied {M : List Sourced} {i : Nat} {t : Text} (h : t <+: (charsOf M).drop i) :
    charsOf (copied M i t) = t := by
  rw [copied, charsOf_take, charsOf_drop]
  exact (List.prefix_iff_eq_take.mp h).symm

theorem copied_within (M : List Sourced) (i : Nat) (t : Text) : copied M i t <:+: M :=
  (List.take_prefix _ _).isInfix.trans (List.drop_suffix _ _).isInfix

/-! ## Parts of the statement -/

/-- Where no character is added, the text is a part of the statement. -/
def Faithful (query : Text) (M : List Sourced) : Prop := ∀ F, F <:+: M → IsCopied F → F <:+: sourced query

theorem faithful_sourced (query : Text) : Faithful query (sourced query) := fun _ h _ => h

theorem Faithful.mono {query : Text} {M N : List Sourced} (h : Faithful query M) (hN : N <:+: M) :
    Faithful query N := fun F hF => h F (hF.trans hN)

theorem Faithful.nil (query : Text) : Faithful query [] := fun F hF _ => by
  rw [List.infix_nil.mp hF]
  exact List.nil_infix

/-- A part of a list without the element `x` lies on one side of it. -/
theorem infix_of_not_mem {α : Type} {x : α} {F A B : List α} (h : F <:+: A ++ x :: B) (hx : x ∉ F) :
    F <:+: A ∨ F <:+: B := by
  obtain ⟨s, t, he⟩ := h
  rcases List.append_eq_append_iff.mp he with ⟨u, hA, -⟩ | ⟨u, hF, hB⟩
  · exact .inl ⟨s, u, hA.symm⟩
  · cases u with
    | nil => exact .inl ⟨s, [], by simpa using hF⟩
    | cons y u =>
      obtain ⟨rfl, rfl⟩ := List.cons.inj hB
      have hsplit : s ++ F = (A ++ [x]) ++ u := by rw [hF]; simp
      rcases List.append_eq_append_iff.mp hsplit with ⟨v, hv, rfl⟩ | ⟨v, -, rfl⟩
      · rcases v.eq_nil_or_concat with rfl | ⟨v, y, rfl⟩
        · exact .inr (List.prefix_append _ _).isInfix
        · have hlast := congrArg List.getLast? hv
          rw [List.concat_eq_append, ← List.append_assoc, List.getLast?_concat, List.getLast?_concat] at hlast
          exact absurd (by simp [Option.some.inj hlast]) hx
      · exact .inr ⟨v, t, by simp⟩

/-- Copied parts with added characters between them. -/
theorem Faithful.append_added {query : Text} {A B : List Sourced} (hA : Faithful query A) (hB : Faithful query B)
    {t : Text} (ht : t ≠ []) : Faithful query (A ++ (added t ++ B)) := by
  induction t generalizing A with
  | nil => exact absurd rfl ht
  | cons c t ih =>
    intro F hF hcopied
    have hnot : (⟨c, none⟩ : Sourced) ∉ F := fun hm => by cases hcopied _ hm
    rcases infix_of_not_mem hF hnot with h | h
    · exact hA F h hcopied
    · cases t with
      | nil => exact hB F h hcopied
      | cons d t => exact ih (Faithful.nil query) (List.cons_ne_nil d t) F h hcopied

/-- A part of the text is a part of the statement if and only if no rewrite has added one of its characters. -/
theorem Faithful.infix_iff {query : Text} {M : List Sourced} (h : Faithful query M) :
    M <:+: sourced query ↔ IsCopied M := by
  refine ⟨fun hpart c hc => ?_, fun hcopied => h M (List.infix_refl M) hcopied⟩
  have hsome : ∀ (start : Nat) (t : Text), IsCopied (sourcedFrom start t) := by
    intro start t
    induction t generalizing start with
    | nil => exact fun _ hc => by cases hc
    | cons d t ih =>
      intro c hc
      rcases List.mem_cons.mp hc with rfl | hc
      · rfl
      · exact ih (start + 1) c hc
  exact hsome 0 query c (hpart.subset hc)

/-- A part of the statement with its positions is a part of the text. -/
theorem charsOf_infix {query : Text} {F : List Sourced} (h : F <:+: sourced query) : charsOf F <:+: query := by
  have := h.map Sourced.char
  rwa [← charsOf, ← charsOf, charsOf_sourced] at this

/-! ## The steps of a stage -/

/-- Is a term of an interval expression refused, and not what stands in front of the first one? -/
def isOfTerm : Cause → Bool
  | .amountUnbalanced | .amountMissing | .unitMissing | .unitWithoutModifier _ | .nestedSubtraction => true
  | _ => false

/-- Does the cause point into what no step has touched yet? -/
def pointsAhead (c : Cause) : Bool := c = .baseMissing || isOfTerm c

/-- A refusal: the cause, and the offending part of the text that the stage has reached. -/
structure Refusal where
  cause : Cause
  fragment : List Sourced

/-- The fragment of a refusal is not empty, and faithful; if the cause points ahead, it is a part of the statement. -/
structure Refusal.Sound (query : Text) (r : Refusal) : Prop where
  ne_nil : r.fragment ≠ []
  faithful : Faithful query r.fragment
  ahead : pointsAhead r.cause = true → r.fragment <:+: sourced query

/-- What a stage answers is faithful, or a sound refusal. -/
def Sound (query : Text) : Except Refusal (List Sourced) → Prop
  | .ok M => Faithful query M
  | .error r => r.Sound query

/-- The error that a stage answers. -/
def Refusal.error (r : Refusal) : StageError := ⟨r.cause, charsOf r.fragment⟩

/-- What a stage does with a text that it has converted up to a place: it comes to its end, it refuses the text, or it
rewrites a part of it and goes on at the next place. -/
inductive Outcome where
  | finished (M : List Sourced)
  | refused (r : Refusal)
  | next (done rest : List Sourced)

/-- What the steps lead to. -/
inductive Leads (step : (done rest : List Sourced) → Outcome) :
    (done rest : List Sourced) → Except Refusal (List Sourced) → Prop where
  | finished {done rest M : List Sourced} : step done rest = .finished M → Leads step done rest (.ok M)
  | refused {done rest : List Sourced} {r : Refusal} : step done rest = .refused r → Leads step done rest (.error r)
  | next {done rest done' rest' : List Sourced} {out : Except Refusal (List Sourced)} :
      step done rest = .next done' rest' → Leads step done' rest' out → Leads step done rest out

/-- The answer of a stage. -/
def answer : Except Refusal (List Sourced) → Except StageError Text
  | .ok M => .ok (charsOf M)
  | .error r => .error r.error

namespace Leads

variable {step : (done rest : List Sourced) → Outcome} {done rest : List Sourced} {out : Except Refusal (List Sourced)}

/-- What holds from step to step holds in the end. -/
theorem invariant (h : Leads step done rest out) {P : List Sourced → List Sourced → Prop}
    {Q : Except Refusal (List Sourced) → Prop} (hP : P done rest)
    (hstep : ∀ done rest, P done rest →
      match step done rest with
      | .finished M => Q (.ok M)
      | .refused r => Q (.error r)
      | .next done' rest' => P done' rest') : Q out := by
  induction h with
  | finished hs => simpa [hs] using hstep _ _ hP
  | refused hs => simpa [hs] using hstep _ _ hP
  | next hs _ ih => exact ih (by simpa [hs] using hstep _ _ hP)

/-- The steps lead to one end. -/
theorem unique (h : Leads step done rest out) {out' : Except Refusal (List Sourced)} (h' : Leads step done rest out') :
    out' = out := by
  induction h with
  | finished hs | refused hs =>
    cases h' with
    | finished hs' | refused hs' | next hs' =>
      rw [hs] at hs'
      cases hs'
      try rfl
  | next hs _ ih =>
    cases h' with
    | finished hs' | refused hs' =>
      rw [hs] at hs'
      cases hs'
    | next hs' h' =>
      rw [hs] at hs'
      cases hs'
      exact ih h'

/-- Steps that make what is ahead smaller lead to an end. -/
theorem exists_of_lt (size : List Sourced → Nat)
    (h : ∀ done rest done' rest', step done rest = .next done' rest' → size rest' < size rest)
    (done rest : List Sourced) : ∃ out, Leads step done rest out := by
  induction hsize : size rest using Nat.strongRecOn generalizing done rest with
  | ind m ih =>
    cases hs : step done rest with
    | finished M => exact ⟨.ok M, .finished hs⟩
    | refused r => exact ⟨.error r, .refused hs⟩
    | next done' rest' =>
      obtain ⟨out, hout⟩ := ih _ (hsize ▸ h done rest done' rest' hs) done' rest' rfl
      exact ⟨out, .next hs hout⟩

/-- Steps that agree with a conversion lead to its answer. -/
theorem answer_eq (h : Leads step done rest out) {convertFrom : Text → Text → Except StageError Text}
    (hstep : ∀ done rest, convertFrom (charsOf done) (charsOf rest) =
      match step done rest with
      | .finished M => .ok (charsOf M)
      | .refused r => .error r.error
      | .next done' rest' => convertFrom (charsOf done') (charsOf rest')) :
    convertFrom (charsOf done) (charsOf rest) = answer out := by
  induction h with
  | @finished done rest M hs => rw [hstep done rest, hs, answer]
  | @refused done rest r hs => rw [hstep done rest, hs, answer]
  | @next done rest done' rest' out hs _ ih => rw [hstep done rest, hs, ← ih]

end Leads

end SqlDialect
