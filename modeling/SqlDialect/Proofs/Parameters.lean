import SqlDialect.Translator
import SqlDialect.Proofs.Comment
import SqlDialect.Proofs.FunctionName
import SqlDialect.Proofs.Interval.Markers
import SqlDialect.Proofs.TimeDifference.Markers

/-!
# The parameters of a translated statement

The parameters of a statement are its question marks and its markers, and values are bound to the question marks of the
translated statement by their positions. In a statement without comments no stage loses one. Renaming functions may add
one: behind a percent sign the name `STD` becomes `stdev`, and its first letter makes a marker.

* `FunctionName.tally_convert`: renaming adds the markers that have a word character directly behind them.
* `Qualifier.count_strip`: dropping qualifiers keeps the question marks.
* `count_translate`: the question marks of a translated statement.
-/

namespace SqlDialect

open Marker (tally isParameter isGlued isFree isLetter Unmarked Seam Tells)

/-! ## Renaming functions -/

namespace FunctionName

variable {r : Rename} {text out : Text}

/-- The names are longer than one character, and only a name with the letter of a marker in front gets another one with
it. -/
theorem renames_letter : ∀ r ∈ renames, 2 ≤ r.old.dropLast.length ∧ 2 ≤ r.new.dropLast.length ∧
    (r.new.head?.any (isLetter true) = true → r.old.dropLast.head? = some 's') := by decide +kernel

/-- A call holds no marker in its name and parenthesis. -/
theorem unmarked_call {v w : Text} (hv : Text.lower v = Text.lower w) (hw : IsName w) : Unmarked (v ++ ['(']) :=
  .append (Marker.unmarked_of_isWord (isWord_of_lower_eq hv hw.2)) (by decide)

/-- In front of a name of two or more characters a percent sign is no free marker. -/
theorem tally_isFree_name {a v w b : Text} (ha : a.getLast?.any isWord = false) (hv : Text.lower v = Text.lower w)
    (hw : IsName w) (hlen : 2 ≤ w.length) : tally isFree (a ++ (v ++ '(' :: b)) = tally isFree a + tally isFree b := by
  have hsecond := Marker.second_of_lower_eq hv hw.2 hlen ('(' :: b)
  have hparen : v ++ '(' :: b = (v ++ ['(']) ++ b := by simp
  rw [Marker.tally_append_of, hparen, Marker.tally_append_left Marker.tells_isFree (unmarked_call hv hw)]
  rintro u hu ⟨x, rfl⟩
  have hlast : u.getLast?.any isWord = false := by
    rw [List.getLast?_append, List.getLast?_eq_some_getLast hu, Option.some_or] at ha
    rw [List.getLast?_eq_some_getLast hu]
    exact ha
  match u, hu with
  | [c], _ => simp [isFree, hsecond]
  | [c, k], _ =>
    have hk : k ≠ 's' := by
      rintro rfl
      cases hlast
    simp [isFree, hk]
  | _ :: _ :: _ :: _, _ => rfl

/-- A renamed function leaves the free markers as they are. -/
theorem Renamed.tally_isFree (hr : r ∈ renames) (h : Renamed r text out) : tally isFree out = tally isFree text := by
  obtain ⟨⟨-, hold⟩, hnew, hname⟩ := renames_spelled r hr
  obtain ⟨holdlen, hnewlen, -⟩ := renames_letter r hr
  induction h with
  | stop => rfl
  | @call ms v u out _ hv hlast _ ih =>
    have hwritten : r.new ++ out = r.new.dropLast ++ '(' :: out := by
      conv => lhs; rw [hnew]
      simp
    rw [hwritten, tally_isFree_name hlast rfl hname hnewlen, tally_isFree_name hlast hv hold holdlen, ih]

/-- Where no percent sign has the letter in either case and a word character behind it, renaming makes none. -/
theorem Renamed.tally_isGlued (hr : r ∈ renames) (h : Renamed r text out) (hg : tally (isGlued true) text = 0) :
    tally (isGlued true) out = 0 := by
  obtain ⟨⟨-, hold⟩, hnew, hname⟩ := renames_spelled r hr
  obtain ⟨holdlen, -, hletter⟩ := renames_letter r hr
  have htells := Marker.tells_isGlued true
  induction h with
  | stop => exact hg
  | @call ms v u out _ hv hlast _ ih =>
    have hsecond := Marker.second_of_lower_eq hv hold.2 holdlen ('(' :: u)
    have hseam : Seam true (textOf ms) (v ++ '(' :: u) := .of_glued hg fun _ _ => hsecond
    have hwritten : Seam true (textOf ms) (r.new ++ out) := by
      constructor
      · intro hpercent
        -- such a name takes the place of one with the letter
        have hhead := hseam.percent hpercent
        rw [Bool.eq_false_iff] at hhead ⊢
        intro hs
        refine hhead ?_
        obtain ⟨d, w, hw⟩ := List.exists_cons_of_ne_nil hname.1
        have hlower : (Text.lower v).head? = some 's' := by
          rw [hv, Text.lower, List.head?_map, hletter (by rw [hnew, hw]; rw [hnew, hw] at hs; exact hs)]
          rfl
        cases v with
        | nil => cases hlower
        | cons c v => exact Marker.isLetter_of_toLower (Option.some.inj hlower)
      · intro k hk hs
        refine absurd hs (Marker.not_marker_of_last ?_ hk)
        cases hl : (textOf ms).getLast? with
        | none => rfl
        | some c =>
          rw [hl] at hlast
          exact isName_of_isWord hlast
    have hparen : v ++ '(' :: u = (v ++ ['(']) ++ u := by simp
    have hunmarked : Unmarked r.new := by
      rw [hnew]
      exact unmarked_call rfl hname
    rw [Marker.tally_append htells hseam, hparen, Marker.tally_append_left htells (unmarked_call hv hold)] at hg
    rw [Marker.tally_append htells hwritten, Marker.tally_append_left htells hunmarked, ih (by omega)]
    omega

/-- **The markers of a renamed text.** Those that have a word character directly behind them are added. -/
theorem tally_convert (hg : tally (isGlued false) text = 0) :
    tally isParameter (convert text) = tally isParameter text + tally (isGlued false) (convert text) := by
  have hfree : tally isFree (convert text) = tally isFree text :=
    convert_induction (P := fun t => tally isFree t = tally isFree text)
      (fun r hr t o h ht => by rw [h.tally_isFree hr, ht]) rfl
  rw [Marker.tally_isParameter_eq, Marker.tally_isParameter_eq, hfree, hg, Nat.add_zero]

theorem tally_isGlued_convert (hg : tally (isGlued true) text = 0) : tally (isGlued true) (convert text) = 0 :=
  convert_induction (P := fun t => tally (isGlued true) t = 0) (fun _ hr _ _ h ht => h.tally_isGlued hr ht) hg

end FunctionName

/-! ## Dropping qualifiers -/

namespace Qualifier

/-- The characters of a qualifier are those of the schema, up to letter case. -/
theorem count_stripFrom {x : Char} (hx : isWord x = false) {qs : List Text} (hq : ∀ q ∈ qs, q ≠ [] ∧ x ∉ q)
    (before : Option Char) (text : Text) : (stripFrom qs before text).text.count x = text.count x := by
  fun_induction stripFrom qs before text with
  | case1 => rfl
  | case2 before c rest q hfind n after ih =>
    split at hfind
    · have hstarts := List.find?_some hfind
      obtain ⟨hne, hnot⟩ := hq q (List.mem_of_find?_eq_some hfind)
      simp only [startsKeyword, Bool.and_eq_true] at hstarts
      obtain ⟨v, u, hvu, hv⟩ := starts_iff.mp hstarts.1.1
      have hlen := length_eq_of_lower_eq hv
      have hx' : x ∉ v := fun hm => by
        obtain ⟨d, hd, he⟩ := List.mem_map.mp (hv ▸ List.mem_map_of_mem hm : x.toLower ∈ Text.lower q)
        rw [eq_of_toLower_eq he hx] at hd
        exact hnot hd
      cases v with
      | nil => exact absurd (List.length_eq_zero_iff.mp hlen.symm) hne
      | cons d v =>
        rw [List.cons_append, List.cons.injEq] at hvu
        obtain ⟨rfl, rfl⟩ := hvu
        have hn : n = v.length := by
          rw [List.length_cons] at hlen
          omega
        rw [ih, hn, List.drop_left, ← List.cons_append, List.count_append, List.count_eq_zero.mpr hx', Nat.zero_add]
    · cases hfind
  | case3 before c rest hfind n hs after ih =>
    rw [List.cons_append, List.count_cons, List.count_append, ih, ← List.count_append, List.take_append_drop,
      List.count_cons]
  | case4 before c rest hfind hs after ih =>
    rw [List.count_cons, ih, List.count_cons]

/-- Dropping the qualifiers keeps the question marks, if the schema has none in its name. -/
theorem count_strip {schema : Text} (hs : '?' ∉ schema) (text : Text) :
    (strip schema text).text.count '?' = text.count '?' := by
  rw [strip]
  split
  · rfl
  · refine count_stripFrom (by decide) (fun q hq => ?_) none text
    simp only [spellings, List.mem_cons, List.not_mem_nil, or_false] at hq
    rcases hq with rfl | rfl <;> simp [hs]

end Qualifier

/-! ## All stages -/

/-- The markers that renaming functions makes: they have a word character directly behind them. -/
def markersMade (query : Text) : Nat :=
  match Translator.convertTimes query with
  | .error _ => 0
  | .ok text => tally (isGlued false) (FunctionName.convert text)

/-- The times of a statement without comments are converted with its markers as they are. -/
theorem tally_convertTimes {p : Text → Bool} {either : Bool} {query text : Text}
    (hc : ∀ t, .region .comment t ∉ pieces query) (hg : tally (isGlued either) query = 0) (hp : Tells either p)
    (h : Translator.convertTimes query = .ok text) : tally p text = tally p query := by
  rw [Translator.convertTimes] at h
  split at h
  · cases h
  · next intermediate hi =>
    obtain ⟨htally, hcomment⟩ := Interval.tally_convert hi hc hg
    rw [TimeDifference.tally_convert h hcomment (by rw [htally _ (Marker.tells_isGlued either), hg]) hp, htally p hp]

/-- **The parameters of a translated statement.** If the statement has no comments and none of its markers has a word
character directly behind it, the translated one has a question mark for each question mark and each marker, and one
for each marker that renaming functions makes. It makes none if no `%S` has a word character behind it either. -/
theorem count_translate {tr : Translator} {query out : Text} (hc : ∀ t, .region .comment t ∉ pieces query)
    (hg : tally (isGlued false) query = 0) (hs : '?' ∉ tr.schema) (h : tr.translate query = .ok out) :
    out.count '?' = query.count '?' + Marker.count query + markersMade query ∧
      (tally (isGlued true) query = 0 → markersMade query = 0) := by
  rw [Translator.translate] at h
  cases hrun : tr.run query with
  | error e =>
    rw [hrun] at h
    cases h
  | ok result =>
    rw [hrun] at h
    cases h
    rw [Translator.run] at hrun
    split at hrun
    · cases hrun
    · next text htimes =>
      cases hrun
      have hmade : markersMade query = tally (isGlued false) (FunctionName.convert text) := by
        rw [markersMade, htimes]
      have hglued := tally_convertTimes hc hg (Marker.tells_isGlued false) htimes
      constructor
      · calc
          _ = (Translator.convertNames text).count '?' := by
            rw [Comment.count_convert (by decide), Qualifier.count_strip hs]
          _ = tally isParameter (FunctionName.convert text) := by
            rw [Translator.convertNames, Marker.count_convert, Marker.tally_isParameter]
          _ = tally isParameter text + markersMade query := by
            rw [FunctionName.tally_convert (hglued.trans hg), hmade]
          _ = _ := by
            rw [tally_convertTimes hc hg Marker.tells_isParameter htimes, Marker.tally_isParameter]
      · intro hcapital
        have htext := tally_convertTimes hc hcapital (Marker.tells_isGlued true) htimes
        have hrenamed := FunctionName.tally_isGlued_convert (htext.trans hcapital)
        have hle := Marker.tally_isGlued_le (FunctionName.convert text)
        omega

/-- A capital behind a percent sign becomes the letter of a marker when the function is renamed. -/
theorem count_translate_capital :
    let query := "select a %STD(b) from t".toList
    let out := "select a ?tdev(b) from t".toList
    let tr : Translator := {}
    (∀ t, .region .comment t ∉ pieces query) ∧ tally (isGlued false) query = 0 ∧ '?' ∉ tr.schema ∧
      tr.translate query = .ok out ∧ markersMade query = 1 ∧ out.count '?' = 1 ∧
      query.count '?' + Marker.count query = 0 := by
  intro query out tr
  have hc : ∀ t, .region .comment t ∉ pieces query := no_comment_iff.mpr (by decide +kernel)
  have hg : tally (isGlued false) query = 0 := by decide +kernel
  have hs : '?' ∉ tr.schema := by decide +kernel
  have hrun : tr.run query = .ok out := eq_ok_of_toOption (by decide +kernel)
  have hout : tr.translate query = .ok out := by
    rw [Translator.translate, hrun]
    rfl
  have hzero : query.count '?' + Marker.count query = 0 := by decide +kernel
  obtain ⟨hcount, -⟩ := count_translate hc hg hs hout
  have hone : out.count '?' = 1 := by decide +kernel
  exact ⟨hc, hg, hs, hout, by omega, hone, hzero⟩

end SqlDialect
