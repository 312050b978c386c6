import Mathlib.Data.List.TakeWhile
import SqlDialect.Report.Verification
import SqlDialect.Proofs.Interval.Bounded
import SqlDialect.Proofs.Split

/-!
# Statements next to each other in a script

A script is cut at the semicolons outside brackets, and a bracket may stand open behind a statement that is to be
reported as faulty. The depth is not set back at the semicolon, so the next statements become part of the faulty one
until as many brackets are closed again. A bracket that is closed without a partner does not matter.

What a check finds is left to the engine, which may be any.

* `splitTopLevel_script`: the parts of a script are its blocks.
* `checkedAlone_iff`: the findings are those of the statements, each checked for itself in turn.
* `findings_alone_iff`: the statements of a script are checked and reported by themselves exactly if no bracket is open
  behind any but the last.
-/

namespace SqlDialect

/-! ## Blank texts -/

theorem Text.trim_eq_nil_iff {t : Text} : trim t = [] ↔ ∀ c ∈ t, isSpace c = true := by
  constructor
  · intro h c hc
    obtain ⟨s, hs, hspaces⟩ := trimStart_decomp t
    obtain ⟨s', hs', hspaces'⟩ := trimEnd_decomp (trimStart t)
    have hend : trimEnd (trimStart t) = [] := h
    rw [hend, List.nil_append] at hs'
    rw [hs, hs'] at hc
    exact (List.mem_append.mp hc).elim (hspaces c) (hspaces' c)
  · intro h
    have hstart : trimStart t = [] := List.dropWhile_eq_nil_iff.mpr h
    rw [trim, hstart]
    rfl

namespace Report

/-! ## Statements of a script -/

/-- The text is a statement of a script: it is not blank, every quote in it is closed, no semicolon stands outside its
literals and comments, and it does not end in a comment. Its brackets need not match. -/
structure IsStatement (s : Text) : Prop where
  nonblank : Text.trim s ≠ []
  quotes : Interval.QuotesClosed s
  separator : .code ';' ∉ pieces s
  closed : leavesCommentOpen s = false

instance (s : Text) : Decidable (IsStatement s) :=
  decidable_of_iff (Text.trim s ≠ [] ∧ Interval.QuotesClosed s ∧ .code ';' ∉ pieces s ∧ leavesCommentOpen s = false)
    ⟨fun ⟨h₁, h₂, h₃, h₄⟩ => ⟨h₁, h₂, h₃, h₄⟩, fun ⟨h₁, h₂, h₃, h₄⟩ => ⟨h₁, h₂, h₃, h₄⟩⟩

/-- What a statement is read as in front of a semicolon. -/
theorem IsStatement.reads {s : Text} (h : IsStatement s) (r : Text) :
    ∃ ps, Reads s (';' :: r) ps ∧ .code ';' ∉ ps ∧ ∀ depth, openBehind depth ps = openBehind depth (pieces s) := by
  obtain ⟨ps, hps⟩ := reads_of_closed h.closed
  -- alone, two dashes at the end are a comment
  have halone : (∀ c, c ≠ '-' → (.code c ∈ ps ↔ .code c ∈ pieces s)) ∧
      ∀ depth, openBehind depth ps = openBehind depth (pieces s) := by
    rcases hps.alone with hp | ⟨ms, rfl, hp⟩
    · rw [hp]
      exact ⟨fun _ _ => Iff.rfl, fun _ => rfl⟩
    · rw [hp]
      refine ⟨fun c hc => by simp [hc], fun depth => ?_⟩
      rw [openBehind_append, openBehind_append]
      rfl
  refine ⟨ps, hps.context (by simp) (by simp) (Or.inr ?_) (fun q hq hm => ?_), ?_, halone.2⟩
  · exact apart_of_head rfl (by decide) (by decide) (by decide) s
  · have hdash : q ≠ '-' := fun e => by
      rw [e] at hq
      exact absurd hq (by decide)
    exact absurd hq (by simp [h.quotes q ((halone.1 q hdash).mp hm)])
  · exact fun hm => h.separator ((halone.1 ';' (by decide)).mp hm)

/-- The script of some statements, with a semicolon between each and the next. -/
def script (ss : List Text) : Text := List.intercalate [';'] ss

theorem script_singleton (s : Text) : script [s] = s := List.intercalate_singleton

theorem script_cons_cons (s t : Text) (ss : List Text) : script (s :: t :: ss) = s ++ ';' :: script (t :: ss) := by
  simp [script, List.intercalate_cons_cons]

/-! ## Blocks -/

/-- The blocks that statements are taken together to, if `depth` brackets are open before them: each goes on with the
next one while a bracket is open behind it. -/
def blocks (depth : Nat) : List Text → List (List Text)
  | [] => []
  | s :: ss =>
    if openBehind depth (pieces s) = 0 then [s] :: blocks 0 ss
    else
      match blocks (openBehind depth (pieces s)) ss with
      | [] => [[s]]
      | b :: bs => (s :: b) :: bs

/-- The first block starts with the first statement. -/
theorem blocks_cons (depth : Nat) (s : Text) (ss : List Text) : ∃ b bs, blocks depth (s :: ss) = (s :: b) :: bs := by
  rw [blocks]
  split
  · exact ⟨[], _, rfl⟩
  · split
    · exact ⟨[], [], rfl⟩
    · next b bs _ => exact ⟨b, bs, rfl⟩

/-- The blocks are the statements in their order, and none is empty. -/
theorem flatten_blocks (depth : Nat) (ss : List Text) : (blocks depth ss).flatten = ss ∧ [] ∉ blocks depth ss := by
  induction ss generalizing depth with
  | nil => exact ⟨rfl, by simp [blocks]⟩
  | cons s ss ih =>
    rw [blocks]
    split
    · obtain ⟨hflat, hne⟩ := ih 0
      exact ⟨by simp [hflat], by simp [hne]⟩
    · obtain ⟨hflat, hne⟩ := ih (openBehind depth (pieces s))
      split
      · next hb =>
        rw [hb] at hflat
        exact ⟨by simp [← hflat], by simp⟩
      · next b bs hb =>
        rw [hb] at hflat hne
        exact ⟨by simpa using hflat, by simpa using fun hm => hne (List.mem_cons_of_mem _ hm)⟩

theorem length_blocks_le (depth : Nat) (ss : List Text) : (blocks depth ss).length ≤ ss.length := by
  induction ss generalizing depth with
  | nil => simp [blocks]
  | cons s ss ih =>
    rw [blocks]
    split
    · simpa using ih 0
    · have hle := ih (openBehind depth (pieces s))
      split
      · simp
      · next b bs hb =>
        rw [hb] at hle
        simp only [List.length_cons] at hle ⊢
        omega

/-- **A block for each statement.** There are as many blocks as statements exactly if no bracket is open behind any
but the last. -/
theorem length_blocks_iff {ss : List Text} :
    (blocks 0 ss).length = ss.length ↔ ∀ s ∈ ss.dropLast, openBehind 0 (pieces s) = 0 := by
  induction ss with
  | nil => simp [blocks]
  | cons s ss ih =>
    cases ss with
    | nil =>
      obtain ⟨b, bs, hb⟩ := blocks_cons 0 s []
      have hle := length_blocks_le 0 [s]
      rw [hb] at hle ⊢
      simpa using hle
    | cons t ss =>
      rw [List.dropLast_cons_cons, List.forall_mem_cons, blocks]
      by_cases hs : openBehind 0 (pieces s) = 0
      · rw [if_pos hs, List.length_cons, List.length_cons, Nat.succ_inj, ih]
        simp [hs]
      · obtain ⟨b, bs, hb⟩ := blocks_cons (openBehind 0 (pieces s)) t ss
        have hle := length_blocks_le (openBehind 0 (pieces s)) (t :: ss)
        rw [if_neg hs, hb]
        rw [hb] at hle
        simp only [List.length_cons] at hle ⊢
        exact ⟨fun h => by omega, fun h => absurd h.1 hs⟩

/-- Without an open bracket, each statement is a block. -/
theorem blocks_alone {ss : List Text} (h : ∀ s ∈ ss.dropLast, openBehind 0 (pieces s) = 0) :
    blocks 0 ss = ss.map ([·]) := by
  induction ss with
  | nil => rfl
  | cons s ss ih =>
    cases ss with
    | nil => simp [blocks]
    | cons t ss =>
      rw [List.dropLast_cons_cons, List.forall_mem_cons] at h
      rw [blocks, if_pos h.1, ih h.2]
      rfl

/-! ## The statements that are checked -/

/-- **The parts of a script** are its blocks. -/
theorem splitPieces_script {ss : List Text} (h : ∀ s ∈ ss, IsStatement s) (hne : ss ≠ []) (depth : Nat) :
    (splitPieces ';' depth (pieces (script ss))).1 :: (splitPieces ';' depth (pieces (script ss))).2 =
      (blocks depth ss).map script := by
  induction ss generalizing depth with
  | nil => exact absurd rfl hne
  | cons s ss ih =>
    cases ss with
    | nil =>
      have hsplit := splitPieces_of_uncut (uncut_of_not_mem (h s List.mem_cons_self).separator depth) []
      rw [List.append_nil, textOf_pieces] at hsplit
      rw [script_singleton, hsplit]
      simp [splitPieces, blocks, script_singleton]
    | cons t ss =>
      have hsemi : ∀ r, pieces (';' :: r) = .code ';' :: pieces r :=
        fun r => pieces_code (regionTail?_of_ne (by decide) (by decide) (by decide) (by decide) r)
      obtain ⟨ps, hreads, hsep, hopen⟩ := (h s List.mem_cons_self).reads (script (t :: ss))
      have htext := hreads.textOf_eq
      have hpieces : pieces (script (s :: t :: ss)) = ps ++ .code ';' :: pieces (script (t :: ss)) := by
        rw [script_cons_cons, hreads, hsemi]
      have ih' := ih (fun u hu => h u (List.mem_cons_of_mem _ hu)) (by simp)
      have hopener : isOpener ';' = false := by decide
      have hcloser : isCloser ';' = false := by decide
      rw [hpieces, splitPieces_of_uncut (uncut_of_not_mem hsep depth), hopen, htext, blocks]
      by_cases hs : openBehind depth (pieces s) = 0
      · simp [splitPieces, hopener, hcloser, hs, ← ih', script_singleton]
      · obtain ⟨b, bs, hb⟩ := blocks_cons (openBehind depth (pieces s)) t ss
        have ihs := ih' (openBehind depth (pieces s))
        rw [hb, List.map_cons, List.cons.injEq] at ihs
        simp [splitPieces, hopener, hcloser, hs, hb, script_cons_cons, ihs]

theorem splitTopLevel_script {ss : List Text} (h : ∀ s ∈ ss, IsStatement s) (hne : ss ≠ []) :
    splitTopLevel (script ss) ';' = (blocks 0 ss).map script :=
  splitPieces_script h hne 0

/-- A block is not blank. -/
theorem trim_script_ne_nil {b : List Text} (h : ∀ s ∈ b, IsStatement s) (hne : b ≠ []) : Text.trim (script b) ≠ [] := by
  cases b with
  | nil => exact absurd rfl hne
  | cons s ss =>
    have hprefix : ∃ r, script (s :: ss) = s ++ r := by
      cases ss with
      | nil => exact ⟨[], by rw [script_singleton, List.append_nil]⟩
      | cons t ss => exact ⟨_, script_cons_cons s t ss⟩
    obtain ⟨r, hr⟩ := hprefix
    intro hblank
    rw [hr, Text.trim_eq_nil_iff] at hblank
    exact (h s List.mem_cons_self).nonblank (Text.trim_eq_nil_iff.mpr fun c hc => hblank c (List.mem_append_left _ hc))

/-- The statements that a script is cut into are its blocks without the spaces around them. -/
theorem statements_script {ss : List Text} (h : ∀ s ∈ ss, IsStatement s) :
    statements (script ss) = (blocks 0 ss).map fun b => Text.trim (script b) := by
  cases ss with
  | nil => simp [statements, splitTopLevel, splitPieces, script, blocks, Text.trim, Text.trimStart, Text.trimEnd]
  | cons s ss =>
    obtain ⟨hflat, hne⟩ := flatten_blocks 0 (s :: ss)
    rw [statements, splitTopLevel_script h (by simp), List.map_map]
    refine List.filter_eq_self.mpr fun x hx => ?_
    obtain ⟨b, hb, rfl⟩ := List.mem_map.mp hx
    have hstatements : ∀ u ∈ b, IsStatement u := fun u hu => h u (hflat ▸ List.mem_flatten_of_mem hb hu)
    have := trim_script_ne_nil hstatements fun e => hne (e ▸ hb)
    simpa using this

/-! ## What is found -/

section Findings

variable {σ : Type} (engine : Engine σ) (execute : Bool) (db : Embedded σ)

/-- The database that checked statements leave. -/
def after : List Text → Embedded σ := List.foldl (fun db statement => (check engine execute db statement).2) db

/-- The findings are those of the statements, in their order: each statement is checked by itself, on the database that
those before it leave, and stands beside what its check gives. -/
def CheckedAlone (l : List Text) (fs : List Finding) : Prop :=
  ∀ i, fs[i]? = l[i]?.map fun statement =>
    Finding.mk statement (check engine execute (after engine execute db (l.take i)) statement).1

/-- Every statement is checked by itself. By induction on the statements: the first one leaves the database that the
others are checked on. -/
theorem checkedAlone_findings (l : List Text) : CheckedAlone engine execute db l (findings engine execute db l) := by
  induction l generalizing db with
  | nil => exact fun i => rfl
  | cons statement l ih =>
    intro i
    cases i with
    | zero => rfl
    | succ i => exact ih (check engine execute db statement).2 i

/-- **The findings** are determined by the statements. -/
theorem checkedAlone_iff {l : List Text} {fs : List Finding} :
    CheckedAlone engine execute db l fs ↔ fs = findings engine execute db l := by
  constructor
  · exact fun h => List.ext_getElem? fun i => (h i).trans (checkedAlone_findings engine execute db l i).symm
  · rintro rfl
    exact checkedAlone_findings engine execute db l

/-- There is one finding for each statement that is checked. -/
theorem map_statement_findings (l : List Text) : (findings engine execute db l).map Finding.statement = l := by
  induction l generalizing db with
  | nil => rfl
  | cons statement l ih => exact congrArg _ (ih (check engine execute db statement).2)

/-- **Statements by themselves.** Whatever the engine answers, the blocks of a script are what is checked and reported.
The statements of the script, without the spaces around them, are checked and reported by themselves and in their order
exactly if no bracket is open behind any but the last. -/
theorem findings_alone_iff {ss : List Text} (h : ∀ s ∈ ss, IsStatement s) :
    CheckedAlone engine execute db ((blocks 0 ss).map fun b => Text.trim (script b))
        (findings engine execute db (statements (script ss))) ∧
      (CheckedAlone engine execute db (ss.map Text.trim) (findings engine execute db (statements (script ss))) ↔
        ∀ s ∈ ss.dropLast, openBehind 0 (pieces s) = 0) := by
  rw [statements_script h]
  refine ⟨checkedAlone_findings engine execute db _, ?_⟩
  rw [checkedAlone_iff]
  constructor
  · intro hfound
    -- there are as many findings as blocks, and as statements
    have htexts := congrArg (List.map Finding.statement) hfound
    rw [map_statement_findings, map_statement_findings] at htexts
    have hlength := congrArg List.length htexts
    rw [List.length_map, List.length_map] at hlength
    exact length_blocks_iff.mp hlength
  · intro hclosed
    have htrim : ss.map Text.trim = (blocks 0 ss).map fun b => Text.trim (script b) := by
      rw [blocks_alone hclosed, List.map_map]
      exact List.map_congr_left fun s _ => congrArg Text.trim (script_singleton s).symm
    rw [htrim]

/-- The second statement becomes part of the first, whose bracket is not closed: one finding instead of two. -/
theorem findings_alone_iff_absorbed :
    let compile (text : Text) : Except String Unit := if text = "select 1".toList then .ok () else .error "syntax error"
    let engine : Engine Unit :=
      { connect := fun files _ => .ok ((), files), compile := fun _ => compile, run := fun _ text => (compile text, ()),
        change := fun _ text _ => ((compile text).map fun _ => 0, ()),
        query := fun _ _ _ => (.ok [[("1", .int 1)]], ()) }
    let db : Embedded Unit := ⟨{}, ()⟩
    let ss := ["select timestampdiff(second, a, b".toList, " select 1 ".toList]
    let found := findings engine false db (statements (script ss))
    (∀ s ∈ ss, IsStatement s) ∧ ¬ (∀ s ∈ ss.dropLast, openBehind 0 (pieces s) = 0) ∧
      found.map Finding.statement = ["select timestampdiff(second, a, b; select 1".toList] ∧
      found.map Finding.failed = [true] ∧ (findings engine false db (ss.map Text.trim)).map Finding.failed = [true, false] ∧
      ¬ CheckedAlone engine false db (ss.map Text.trim) found := by
  intro compile engine db ss found
  have hss : ∀ s ∈ ss, IsStatement s := by decide +kernel
  have hopen : ¬ (∀ s ∈ ss.dropLast, openBehind 0 (pieces s) = 0) := by decide +kernel
  obtain ⟨-, hiff⟩ := findings_alone_iff engine false db hss
  refine ⟨hss, hopen, ?_, ?_, ?_, fun halone => hopen (hiff.mp halone)⟩
  · decide +kernel
  · decide +kernel
  · decide +kernel

end Findings

end Report

end SqlDialect
