import Mathlib.Order.Bounds.Basic
import SqlDialect.Search
import SqlDialect.Proofs.Bytes.Region

/-!
# One reading of a text

Three scans tell literals and comments from code, each by itself: the table lists the regions from the left, the
look-up halves the table until it comes to the region of an offset, and the search for a keyword passes over what it
meets. They agree. What the table lists is what the search passes over, and as the regions stand in their order, the
look-up finds the one around an offset.

* `isTable_of_opaqueRegions`: what the table lists and what it leaves out.
* `lookUp_eq_some_iff`: the region found by halving is the one around the offset.
* `findKeyword_isLeast`: the search finds the first place outside of the regions.
* `scans_agree`: the three together.
-/

namespace SqlDialect.Bytes

open Text

variable {text : Text} {rs : List Span} {r : Span} {i j k : Nat}

/-! ## What opens a region -/

/-- A quote stands at the offset. -/
def OpensLiteral (text : Text) (i : Nat) : Prop := ∃ q, byte? text i = some q ∧ isQuote q = true

/-- The sign of a block, or one of the two signs of a comment up to the end of the line, stands at the offset. -/
def OpensComment (text : Text) (i : Nat) : Prop :=
  (byte? text i = some '/' ∧ byte? text (i + 1) = some '*') ∨ byte? text i = some '#' ∨
    (byte? text i = some '-' ∧ byte? text (i + 1) = some '-' ∧ (byte? text (i + 2)).all isBlank = true)

/-- If a quote stands at the offset, none of its kind stands behind it. -/
def Unpaired (text : Text) (i : Nat) : Prop :=
  ∀ q, byte? text i = some q → isQuote q = true → ∀ j, i < j → byte? text j ≠ some q

theorem skipComment_eq_none_iff : skipComment text i = some none ↔ ¬ OpensComment text i := by
  constructor
  · rintro h (hblock | hline | hdashes)
    · rw [skipComment, if_pos hblock] at h
      obtain ⟨body, -, hbody⟩ := Option.bind_eq_some_iff.mp h
      cases hbody
    · rw [skipComment, if_neg (by simp [hline]), if_pos hline] at h
      obtain ⟨stop, -, hstop⟩ := Option.bind_eq_some_iff.mp h
      cases hstop
    · rw [skipComment, if_neg (by simp [hdashes.1]), if_neg (by simp [hdashes.1]), if_pos hdashes] at h
      obtain ⟨stop, -, hstop⟩ := Option.bind_eq_some_iff.mp h
      cases hstop
  · intro h
    simp only [OpensComment, not_or] at h
    rw [skipComment, if_neg h.1, if_neg h.2.1, if_neg h.2.2]
    rfl

theorem quoteClosing_eq_none {q : Char} (h : quoteClosing text i q = some none) (hj : i < j) :
    byte? text j ≠ some q := by
  obtain ⟨bs, hbs, hnone⟩ := Option.bind_eq_some_iff.mp h
  obtain rfl := Option.some.inj (Option.ite_none_right_eq_some.mp hbs).2
  simp only [Option.pure_def, Option.some.injEq, Option.map_eq_none_iff, List.idxOf?_eq_none_iff] at hnone
  obtain ⟨m, rfl⟩ := Nat.exists_eq_add_of_le hj
  intro hq
  rw [byte?, ← List.getElem?_drop] at hq
  exact hnone (List.mem_of_getElem? hq)

/-- Where a scan passes over nothing, no comment starts and no quote has a partner behind it. -/
theorem code_of_skipOpaque (h : skipOpaque text i = some none) : ¬ OpensComment text i ∧ Unpaired text i := by
  obtain ⟨literal, hl, h⟩ := Option.bind_eq_some_iff.mp h
  cases literal with
  | some next => cases h
  | none =>
    refine ⟨skipComment_eq_none_iff.mp h, fun q hq hquote j hj => ?_⟩
    rw [skipLiteral, hq] at hl
    simp only [hquote, if_true] at hl
    obtain ⟨close, hclose, hnone⟩ := Option.bind_eq_some_iff.mp hl
    rw [Option.pure_def, Option.some.injEq, Option.map_eq_none_iff] at hnone
    rw [hnone, findClosing, hq] at hclose
    simp only [hquote, if_true] at hclose
    exact quoteClosing_eq_none hclose hj

/-- What a scan passes over starts with a quote or the sign of a comment. -/
theorem opens_of_skipOpaque (h : skipOpaque text i = some (some j)) : OpensLiteral text i ∨ OpensComment text i := by
  obtain ⟨literal, hl, h⟩ := Option.bind_eq_some_iff.mp h
  cases literal with
  | some next =>
    left
    rw [skipLiteral] at hl
    split at hl
    · cases hl
    · next b hb =>
      split at hl
      · next hquote => exact ⟨b, hb, hquote⟩
      · cases hl
  | none =>
    right
    by_contra hno
    have h' : skipComment text i = some (some j) := h
    rw [skipComment_eq_none_iff.mpr hno] at h'
    cases h'

/-! ## The table -/

/-- The region lies around the offset. -/
def Span.Covers (r : Span) (i : Nat) : Prop := r.start ≤ i ∧ i < r.stop

/-- None of the regions lies around the offset. -/
def Outside (rs : List Span) (i : Nat) : Prop := ∀ r ∈ rs, ¬ r.Covers i

/-- The regions list the literals and comments of a text from the offset `start` on: they stand in their order and
apart from each other, each is opened by its first byte and ends where a scan goes on behind it, and nothing is opened
outside of them. -/
structure IsTable (text : Text) (start : Nat) (rs : List Span) : Prop where
  start_le : ∀ r ∈ rs, start ≤ r.start
  nonempty : ∀ r ∈ rs, r.start < r.stop
  ordered : rs.Pairwise (·.stop ≤ ·.start)
  opens : ∀ r ∈ rs, OpensLiteral text r.start ∨ OpensComment text r.start
  ends : ∀ r ∈ rs, skipOpaque text r.start = some (some r.stop)
  code : ∀ i, start ≤ i → Outside rs i → ¬ OpensComment text i ∧ Unpaired text i

theorem outside_cons : Outside (r :: rs) i ↔ ¬ r.Covers i ∧ Outside rs i := List.forall_mem_cons

/-- At the end of the text nothing is left to list. -/
theorem IsTable.nil (h : byteLength text ≤ i) : IsTable text i [] where
  start_le := by simp
  nonempty := by simp
  ordered := .nil
  opens := by simp
  ends := by simp
  code := fun j hj _ => by
    have hbyte := byte?_eq_none (Nat.le_trans h hj)
    exact ⟨by simp [OpensComment, hbyte], fun q hq => by rw [hbyte] at hq; cases hq⟩

/-- A region that is passed over is put in front of those behind it. -/
theorem IsTable.region {next : Nat} (h : skipOpaque text i = some (some next)) (hrs : IsTable text next rs) :
    IsTable text i (⟨i, next⟩ :: rs) where
  start_le := List.forall_mem_cons.mpr
    ⟨Nat.le_refl i, fun r hr => Nat.le_trans (Nat.le_of_lt (skipOpaque_lt h)) (hrs.start_le r hr)⟩
  nonempty := List.forall_mem_cons.mpr ⟨skipOpaque_lt h, hrs.nonempty⟩
  ordered := List.pairwise_cons.mpr ⟨hrs.start_le, hrs.ordered⟩
  opens := List.forall_mem_cons.mpr ⟨opens_of_skipOpaque h, hrs.opens⟩
  ends := List.forall_mem_cons.mpr ⟨h, hrs.ends⟩
  code := fun j hj hout => by
    obtain ⟨hhead, hrest⟩ := outside_cons.mp hout
    exact hrs.code j (Nat.le_of_not_lt fun hlt => hhead ⟨hj, hlt⟩) hrest

/-- A byte of code is passed over. -/
theorem IsTable.step (h : skipOpaque text i = some none) (hrs : IsTable text (i + 1) rs) : IsTable text i rs where
  start_le := fun r hr => Nat.le_of_succ_le (hrs.start_le r hr)
  nonempty := hrs.nonempty
  ordered := hrs.ordered
  opens := hrs.opens
  ends := hrs.ends
  code := fun j hj hout => by
    rcases Nat.eq_or_lt_of_le hj with rfl | hj
    · exact code_of_skipOpaque h
    · exact hrs.code j hj hout

/-- **The table** lists the literals and comments from an offset on. -/
theorem isTable_of_opaqueRegions (h : opaqueRegions text i = some rs) : IsTable text i rs := by
  fun_induction opaqueRegions text i generalizing rs with
  | case1 i hi next hn ih =>
    obtain ⟨behind, hbehind, hrs⟩ := Option.bind_eq_some_iff.mp h
    obtain rfl := Option.some.inj hrs
    exact .region hn (ih hbehind)
  | case2 i hi hn ih => exact .step hn (ih h)
  | case3 => cases h
  | case4 i hi =>
    obtain rfl := Option.some.inj h
    exact .nil (Nat.le_of_not_lt hi)

/-! ## Looking up a region -/

/-- The index from `low` on and below `high` up to which `p` holds in the list, if there is such an index: what is left
of the list is halved in each step. -/
def partitionPoint {α : Type} (p : α → Bool) (xs : List α) (low high : Nat) : Nat :=
  if low < high then
    if xs[(low + high) / 2]?.any p then partitionPoint p xs ((low + high) / 2 + 1) high
    else partitionPoint p xs low ((low + high) / 2)
  else low
termination_by high - low

/-- The region around an offset, by halving the table. -/
def lookUp (rs : List Span) (i : Nat) : Option Span :=
  rs[partitionPoint (·.stop ≤ i) rs 0 rs.length]?.filter fun r => r.start ≤ i && i < r.stop

/-- Where `p` holds up to some index and not from there on, halving comes to that index. -/
theorem partitionPoint_append {α : Type} {p : α → Bool} {ys zs : List α} (hys : ∀ y ∈ ys, p y = true)
    (hzs : ∀ z ∈ zs, p z = false) {low high : Nat} (hlow : low ≤ ys.length) (hhigh : ys.length ≤ high) :
    partitionPoint p (ys ++ zs) low high = ys.length := by
  fun_induction partitionPoint p (ys ++ zs) low high with
  | case1 low high hlt hp ih =>
    -- in the middle `p` holds
    refine ih (Nat.lt_of_not_le fun hle => ?_) hhigh
    rw [List.getElem?_append_right hle] at hp
    cases hz : zs[(low + high) / 2 - ys.length]? with
    | none =>
      rw [hz] at hp
      cases hp
    | some z =>
      rw [hz, Option.any_some, hzs z (List.mem_of_getElem? hz)] at hp
      cases hp
  | case2 low high hlt hp ih =>
    refine ih hlow (Nat.le_of_not_lt fun hmid => hp ?_)
    rw [List.getElem?_append_left hmid, List.getElem?_eq_getElem hmid, Option.any_some]
    exact hys _ (List.getElem_mem hmid)
  | case3 low high hge => omega

/-- Regions in front of the one around an offset end before it, the others behind it. -/
theorem IsTable.split {start : Nat} (h : IsTable text start rs) (hr : r ∈ rs) (hcovers : r.Covers i) :
    ∃ ys zs, rs = ys ++ r :: zs ∧ (∀ y ∈ ys, decide (y.stop ≤ i) = true) ∧
      ∀ z ∈ r :: zs, decide (z.stop ≤ i) = false := by
  obtain ⟨ys, zs, rfl⟩ := List.append_of_mem hr
  obtain ⟨-, hbehind, hfront⟩ := List.pairwise_append.mp h.ordered
  obtain ⟨hstart, hstop⟩ := hcovers
  refine ⟨ys, zs, rfl, fun y hy => ?_, List.forall_mem_cons.mpr ⟨by simpa using hstop, fun z hz => ?_⟩⟩
  · have := hfront y hy r List.mem_cons_self
    simp only [decide_eq_true_eq]
    omega
  · have hlt := h.nonempty z (List.mem_append_right _ (List.mem_cons_of_mem _ hz))
    have hle := (List.pairwise_cons.mp hbehind).1 z hz
    simp only [decide_eq_false_iff_not]
    omega

theorem covers_iff : (decide (r.start ≤ i) && decide (i < r.stop)) = true ↔ r.Covers i := by
  rw [Bool.and_eq_true, decide_eq_true_eq, decide_eq_true_eq]
  rfl

/-- **The region around an offset** is found by halving. -/
theorem IsTable.lookUp_eq_some_iff {start : Nat} (h : IsTable text start rs) :
    lookUp rs i = some r ↔ r ∈ rs ∧ r.Covers i := by
  constructor
  · intro hfound
    obtain ⟨hget, hcovers⟩ := Option.filter_eq_some_iff.mp hfound
    exact ⟨List.mem_of_getElem? hget, covers_iff.mp hcovers⟩
  · rintro ⟨hr, hcovers⟩
    obtain ⟨ys, zs, rfl, hys, hzs⟩ := h.split hr hcovers
    rw [lookUp, partitionPoint_append hys hzs (Nat.zero_le _) (by simp), List.getElem?_append_right (Nat.le_refl _),
      Nat.sub_self, List.getElem?_cons_zero, Option.filter_some, if_pos (covers_iff.mpr hcovers)]

/-- Passing over the regions that end before an offset leads to the same one. -/
theorem IsTable.regionAt_eq_some_iff {start : Nat} (h : IsTable text start rs) :
    regionAt rs i = some r ↔ r ∈ rs ∧ r.Covers i := by
  constructor
  · intro hfound
    obtain ⟨hhead, hcovers⟩ := Option.filter_eq_some_iff.mp hfound
    exact ⟨(List.dropWhile_sublist _).subset (List.mem_of_mem_head? hhead), covers_iff.mp hcovers⟩
  · rintro ⟨hr, hcovers⟩
    obtain ⟨ys, zs, rfl, hys, hzs⟩ := h.split hr hcovers
    rw [regionAt, List.dropWhile_append_of_pos hys,
      List.dropWhile_cons_of_neg (by rw [hzs r List.mem_cons_self]; exact Bool.false_ne_true), List.head?_cons,
      Option.filter_some, if_pos (covers_iff.mpr hcovers)]

/-! ## The search for a keyword -/

section Search

variable {word : Text}

/-- The offsets from `i` on where the word stands outside of the regions. -/
def places (text word : Text) (rs : List Span) (i : Nat) : Set Nat :=
  {j | i ≤ j ∧ Outside rs j ∧ keywordAt text j word = some true}

/-- No place is within a region. -/
theorem places_region {next : Nat} (h : i < next) : places text word (⟨i, next⟩ :: rs) i = places text word rs next := by
  ext j
  simp only [places, Set.mem_ofPred_eq, outside_cons, Span.Covers]
  constructor
  · rintro ⟨hj, ⟨hhead, hrest⟩, hkey⟩
    exact ⟨by omega, hrest, hkey⟩
  · rintro ⟨hj, hrest, hkey⟩
    exact ⟨by omega, ⟨by omega, hrest⟩, hkey⟩

/-- Where the word does not stand there is no place. -/
theorem places_step (h : keywordAt text i word = some false) : places text word rs i = places text word rs (i + 1) := by
  ext j
  constructor
  · rintro ⟨hj, hout, hkey⟩
    refine ⟨Nat.lt_of_le_of_ne hj fun e => ?_, hout, hkey⟩
    rw [← e, h] at hkey
    cases hkey
  · rintro ⟨hj, hout, hkey⟩
    exact ⟨Nat.le_of_succ_le hj, hout, hkey⟩

/-- In front of the regions the first offset is the first place if the word stands there. -/
theorem isLeast_places {start : Nat} (hrs : IsTable text start rs) (hi : i < start)
    (h : keywordAt text i word = some true) : IsLeast (places text word rs i) i := by
  refine ⟨⟨Nat.le_refl i, fun r hr hcovers => ?_, h⟩, fun j hj => hj.1⟩
  exact Nat.not_le_of_lt hi (Nat.le_trans (hrs.start_le r hr) hcovers.1)

/-- **The search for a keyword** finds the first offset outside of the regions where the keyword stands. -/
theorem findKeyword_isLeast (hword : word ≠ []) (h : opaqueRegions text i = some rs) :
    findKeyword text word i = some (some k) ↔ IsLeast (places text word rs i) k := by
  fun_induction opaqueRegions text i generalizing rs with
  | case1 i hi next hn ih =>
    obtain ⟨behind, hbehind, hrs⟩ := Option.bind_eq_some_iff.mp h
    obtain rfl := Option.some.inj hrs
    obtain ⟨b, hb⟩ := exists_byte?_of_lt hi
    rw [places_region (skipOpaque_lt hn), ← ih hbehind, findKeyword_of_byte word hb, hn]
    rfl
  | case2 i hi hn ih =>
    obtain ⟨b, hb⟩ := exists_byte?_of_lt hi
    obtain ⟨found, hfound⟩ := exists_keywordAt text i word
    rw [findKeyword_of_byte word hb, hn]
    simp only [Option.bind_eq_bind, Option.bind_some, hfound]
    cases found with
    | true =>
      have hleast := isLeast_places (isTable_of_opaqueRegions h) (Nat.lt_succ_self i) hfound
      rw [if_pos rfl]
      constructor
      · intro hk
        obtain rfl := Option.some.inj (Option.some.inj hk)
        exact hleast
      · intro hk
        rw [hleast.unique hk]
        rfl
    | false =>
      rw [places_step hfound]
      exact ih h
  | case3 => cases h
  | case4 i hi =>
    rw [findKeyword, if_neg hi]
    constructor
    · intro hk
      cases hk
    · rintro ⟨⟨hk, -, hkey⟩, -⟩
      have hroom := keywordAt_le hkey
      have hpos := byteLength_pos hword
      omega

/-- The search by positions gives the offset that is found here. -/
theorem findKeyword_zero (hword : word ≠ []) (text : Text) :
    findKeyword text word 0 = some (Search.keyword? word text 0) := by
  have h := findKeyword_eq hword (Nat.zero_le text.length)
  rw [byteOffset_zero] at h
  rw [h]
  cases text <;> simp [Search.keyword?, Search.at?, position?, findKeywordFrom, Function.comp_def]

end Search

/-! ## One reading -/

/-- **One reading.** The table lists the literals and comments of a text and leaves out what is code; the region that
halving comes to at an offset is the one listed around it, and the same as that of the character which the byte belongs
to; and the first place where the search comes to a keyword is the first outside of the regions. -/
theorem scans_agree (text : Text) :
    opaqueRegions text 0 = some (spans text) ∧ IsTable text 0 (spans text) ∧
      (∀ i r, lookUp (spans text) i = some r ↔ r ∈ spans text ∧ r.Covers i) ∧
      (∀ i j, i < text.length → byteOffset text i ≤ j → j < byteOffset text (i + 1) →
        lookUp (spans text) j = (regionAt? (regions text) i).map (span text)) ∧
      ∀ word, (bytes word).head?.any isWord = true →
        findKeyword text word 0 = some (Search.keyword? word text 0) ∧
          ∀ i, Search.keyword? word text 0 = some i ↔
            IsLeast {j | Outside (spans text) j ∧ keywordAt text j word = some true} i := by
  have hspans := opaqueRegions_eq text
  have htable := isTable_of_opaqueRegions hspans
  refine ⟨hspans, htable, fun i r => htable.lookUp_eq_some_iff, fun i j hi h₁ h₂ => ?_, fun word hword => ?_⟩
  · rw [← regionAt_eq hi h₁ h₂]
    exact Option.ext fun r => htable.lookUp_eq_some_iff.trans htable.regionAt_eq_some_iff.symm
  · have hne : word ≠ [] := fun e => by
      rw [e] at hword
      cases hword
    have hsearch := findKeyword_zero hne text
    refine ⟨hsearch, fun i => ?_⟩
    have hleast := findKeyword_isLeast (k := i) hne hspans
    rw [hsearch, Option.some.injEq] at hleast
    simpa only [places, Nat.zero_le, true_and] using hleast

/-- The keyword of a literal and that of a comment are not found, an offset within a character belongs to no region, and
a quote without a partner is code. -/
theorem scans_agree_quotes :
    let text := "é'if' /*if*/ x if \"".toList
    let word := "if".toList
    spans text = [⟨2, 6⟩, ⟨7, 13⟩] ∧ opaqueRegions text 0 = some (spans text) ∧
      OpensComment text 7 ∧ skipOpaque text 7 = some (some 13) ∧
      lookUp (spans text) 9 = some ⟨7, 13⟩ ∧
      (0 < text.length ∧ byteOffset text 0 ≤ 1 ∧ 1 < byteOffset text 1) ∧ lookUp (spans text) 1 = none ∧
      Unpaired text 19 ∧ byte? text 19 = some '\"' ∧
      (bytes word).head?.any isWord = true ∧ findKeyword text word 0 = some (some 16) ∧
      IsLeast {j | Outside (spans text) j ∧ keywordAt text j word = some true} 16 := by
  intro text word
  obtain ⟨hregions, htable, hlook, hchar, hsearch⟩ := scans_agree text
  have hspans : spans text = [⟨2, 6⟩, ⟨7, 13⟩] := by decide +kernel
  have hcomment : (⟨7, 13⟩ : Span) ∈ spans text := by
    rw [hspans]
    simp
  have hopens : OpensComment text 7 := Or.inl ⟨by decide, by decide⟩
  have hwithin : 0 < text.length ∧ byteOffset text 0 ≤ 1 ∧ 1 < byteOffset text 1 := by decide
  have hnone : regionAt? (regions text) 0 = none := by decide +kernel
  have hword : (bytes word).head?.any isWord = true := by decide
  have hfound : Search.keyword? word text 0 = some 16 := by decide +kernel
  obtain ⟨hkeyword, hleast⟩ := hsearch word hword
  have hout : Outside (spans text) 19 := by
    rw [hspans]
    simp [Outside, Span.Covers]
  refine ⟨hspans, hregions, hopens, htable.ends _ hcomment, (hlook 9 _).mpr ⟨hcomment, by decide, by decide⟩, hwithin, ?_,
    (htable.code 19 (Nat.zero_le _) hout).2, by decide, hword, ?_, (hleast 16).mp hfound⟩
  · rw [hchar 0 1 hwithin.1 hwithin.2.1 hwithin.2.2, hnone]
    rfl
  · rw [hkeyword, hfound]

end SqlDialect.Bytes
