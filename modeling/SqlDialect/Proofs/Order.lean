import SqlDialect.Proofs.BottomUp
import SqlDialect.Proofs.Interval.Order

/-!
# The order of names through both conversions

Values are bound to the markers of a statement by their positions, so the names in a text have to keep their order when
the text is converted. The conversion of interval expressions keeps it. A call of TIMESTAMPDIFF is written with its two
timestamps the other way round, and that changes the order exactly if both hold names.

* `TimeDifference.perm_bottomUp`: no name is lost and none is new.
* `TimeDifference.occurrences_bottomUp_iff`: when the order is kept.
* `names_in_order_iff`: both conversions, one after the other.
-/

namespace SqlDialect

namespace TimeDifference

/-! ## Names that the conversion does not use -/

/-- The words that the conversion reads and writes. -/
def ownWords : List Text := [functionName, unitName, "julianday".toList, "86400".toList]

/-- Is the name none of the words of the conversion? -/
def Fresh (name : Text) : Prop := Text.lower name ∉ ownWords

instance (name : Text) : Decidable (Fresh name) := inferInstanceAs (Decidable (Text.lower name ∉ ownWords))

variable {names : List Text}

/-- A text that holds only words of the conversion holds no fresh name. -/
theorem occurrences_own {t : Text} (hf : ∀ x ∈ names, Fresh x) (ht : ∀ w ∈ words t, Text.lower w ∈ ownWords) :
    occurrences names t = [] := by
  rw [occurrences, List.filter_eq_nil_iff]
  intro w hw hm
  exact hf w (by simpa using hm) (ht w hw)

/-- A word of the conversion is no fresh name, in no letter case. -/
theorem occurrences_ownWord {v w : Text} (hf : ∀ x ∈ names, Fresh x) (hw : w ∈ ownWords)
    (hv : Text.lower v = Text.lower w) : occurrences names v = [] := by
  have hspec : ∀ w ∈ ownWords, (∀ c ∈ w, isName c = true) ∧ Text.lower w = w := by decide +kernel
  refine occurrences_name (isName_of_lower_eq hv (hspec w hw).1) fun hm => hf v hm ?_
  rw [hv, (hspec w hw).2]
  exact hw

/-! ## A call -/

/-- The written form of a call holds the names of its timestamps, the last one first. -/
theorem occurrences_render (hf : ∀ x ∈ names, Fresh x) (d : TimeDifference) :
    occurrences names d.render = occurrences names d.last ++ occurrences names d.first := by
  have hopening : occurrences names opening = [] := occurrences_own hf (by decide +kernel)
  have hmiddle : occurrences names middle = [] := occurrences_own hf (by decide +kernel)
  have hclosing : occurrences names closing = [] := occurrences_own hf (by decide +kernel)
  have hhead : ∀ a : Text, NameBreak a closing := nameBreak_of_head (by decide +kernel)
  have hhead' : ∀ a : Text, NameBreak a middle := nameBreak_of_head (by decide +kernel)
  have hlast : NameBreak (opening ++ d.last ++ middle) d.first := by
    refine nameBreak_of_last ?_ _
    rw [List.getLast?_append, (by decide +kernel : middle.getLast? = some '(')]
    exact (by decide : isWord '(' = false)
  rw [render, occurrences_append (hhead _), occurrences_append hlast, occurrences_append (hhead' _),
    occurrences_append (nameBreak_of_last (by decide +kernel) _), hopening, hmiddle, hclosing]
  simp

section Call

variable {a front inner unit first last : Text} {k : Nat}

/-- A text with a first call of three arguments. -/
theorem text_of_call (ho : opened? a = some (front, inner)) (hc : closingIn ['('] inner = some k)
    (hs : splitTopLevel (inner.take k) ',' = [unit, first, last]) :
    ∃ v bl : Text, a = (front ++ (v ++ bl)) ++
        '(' :: (unit ++ ',' :: (first ++ ',' :: (last ++ ')' :: inner.drop (k + 1)))) ∧
      front.getLast?.any isWord = false ∧ Text.lower v = Text.lower functionName ∧ ∀ c ∈ bl, isBlank c = true := by
  have hplaced := Placed.whole a
  obtain ⟨n, hn, -⟩ := Option.map_eq_some_iff.mp ho
  obtain ⟨ms, v, bl, inner', qs, ho', -, -, hopened, hp, -, hlast, hv, hbl⟩ := hplaced.call hn
  rw [ho, Option.some.injEq, Prod.mk.injEq] at ho'
  obtain ⟨rfl, rfl⟩ := ho'
  obtain ⟨q, rs, rfl, hq, -, hrs⟩ := hopened.arguments hc
  refine ⟨v, bl, ?_, hlast, hv, hbl⟩
  -- the arguments with their separators
  have hparts := joinParts_splitPieces ',' 0 (pieces (inner.take k))
  rw [textOf_pieces] at hparts
  simp only [splitTopLevel, List.cons.injEq] at hs
  rw [hs.1, hs.2] at hparts
  have hargs : inner.take k = unit ++ ',' :: (first ++ ',' :: last) := by
    rw [← hparts]
    simp [joinParts]
  have htext := congrArg textOf hp
  rw [textOf_pieces] at htext
  rw [htext]
  simp only [textOf_append, textOf_cons, textOf_map_code, Piece.text, hq.textOf_eq, hrs.reads.textOf_eq, hargs,
    List.append_assoc, List.cons_append, List.nil_append]

/-- The names of a text with a first call of SECOND. -/
theorem occurrences_call (hf : ∀ x ∈ names, Fresh x) (ho : opened? a = some (front, inner))
    (hc : closingIn ['('] inner = some k) (hs : splitTopLevel (inner.take k) ',' = [unit, first, last])
    (hu : Text.same (Text.trim unit) unitName = true) :
    occurrences names a = occurrences names front ++ (occurrences names (Text.trim first) ++
      (occurrences names (Text.trim last) ++ occurrences names (inner.drop (k + 1)))) := by
  obtain ⟨v, bl, ha, hfront, hv, hbl⟩ := text_of_call ho hc hs
  have hname : occurrences names (v ++ bl) = [] := by
    rw [occurrences_append_right fun c hc => isName_of_isSpace (isSpace_of_isBlank (hbl c hc)),
      occurrences_ownWord hf (by simp [ownWords]) hv]
  have hunit : occurrences names unit = [] := by
    have hown : unitName ∈ ownWords := by simp [ownWords]
    rw [← occurrences_trim, occurrences_ownWord hf hown (by simpa [Text.same] using hu)]
  rw [ha, occurrences_append_cons (by decide), occurrences_append_cons (by decide), occurrences_append_cons (by decide),
    occurrences_append_cons (by decide), occurrences_append (nameBreak_of_last hfront _), hname, hunit,
    occurrences_trim, occurrences_trim, List.append_nil, List.nil_append]

/-- The names of the converted text. -/
theorem occurrences_bottomUp_call (hf : ∀ x ∈ names, Fresh x) (ho : opened? a = some (front, inner))
    (hc : closingIn ['('] inner = some k) (hs : splitTopLevel (inner.take k) ',' = [unit, first, last]) :
    occurrences names (bottomUp a) = occurrences names front ++ (occurrences names (bottomUp (Text.trim last)) ++
      (occurrences names (bottomUp (Text.trim first)) ++ occurrences names (bottomUp (inner.drop (k + 1))))) := by
  obtain ⟨v, bl, -, hfront, -⟩ := text_of_call ho hc hs
  have hend : ∀ (d : TimeDifference) (t : Text), NameBreak (front ++ d.render) t := fun d t => by
    refine nameBreak_of_last ?_ t
    rw [render, List.getLast?_append, List.getLast?_append, (by decide +kernel : closing.getLast? = some ')')]
    exact (by decide : isWord ')' = false)
  rw [bottomUp_call ho hc hs, occurrences_append (hend _ _), occurrences_append (nameBreak_of_last hfront _),
    occurrences_render hf]
  simp only [List.append_assoc]

end Call

/-! ## The conversion -/

/-- Do both timestamps of the call hold names? -/
def Call.swaps (names : List Text) (c : Call) : Bool :=
  match c.parts with
  | [_, first, last] => !(occurrences names first).isEmpty && !(occurrences names last).isEmpty
  | _ => false

/-- Two parts in the other order are the parts in their order only if one of them is empty. -/
theorem swapped_eq_iff {α : Type} {as bs cs as' bs' cs' : List α} (ha : as'.Perm as) (hb : bs'.Perm bs)
    (hn : (as ++ (bs ++ cs)).Nodup) :
    bs' ++ (as' ++ cs') = as ++ (bs ++ cs) ↔ (as = [] ∨ bs = []) ∧ as' = as ∧ bs' = bs ∧ cs' = cs := by
  constructor
  · intro h
    have hempty : as = [] ∨ bs = [] := Classical.byContradiction fun hno => by
      simp only [not_or] at hno
      obtain ⟨x, xs, rfl⟩ := List.exists_cons_of_ne_nil hno.1
      obtain ⟨y, ys, rfl⟩ := List.exists_cons_of_ne_nil fun e : bs' = [] => hno.2 (List.nil_perm.mp (e ▸ hb))
      rw [List.cons_append, List.cons_append, List.cons.injEq] at h
      have hy : y ∈ bs := hb.mem_iff.mp List.mem_cons_self
      rw [h.1] at hy
      exact (List.nodup_append.mp hn).2.2 x List.mem_cons_self x (List.mem_append_left _ hy) rfl
    refine ⟨hempty, ?_⟩
    rcases hempty with rfl | rfl
    · have has' := List.perm_nil.mp ha
      rw [has', List.nil_append, List.nil_append] at h
      obtain ⟨h₁, h₂⟩ := List.append_inj h hb.length_eq
      exact ⟨has', h₁, h₂⟩
    · have hbs' := List.perm_nil.mp hb
      rw [hbs', List.nil_append, List.nil_append] at h
      obtain ⟨h₁, h₂⟩ := List.append_inj h ha.length_eq
      exact ⟨h₁, hbs', h₂⟩
  · rintro ⟨rfl | rfl, rfl, rfl, rfl⟩ <;> simp

/-- **The names of a converted text.** They are those of the text. If none of them stands twice they are in the same
order exactly if no call has names in both of its timestamps. -/
theorem occurrences_bottomUp {a : Text} (hf : ∀ x ∈ names, Fresh x) (hw : ∀ c ∈ calls a, c.WellFormed) :
    (occurrences names (bottomUp a)).Perm (occurrences names a) ∧
      ((occurrences names a).Nodup →
        (occurrences names (bottomUp a) = occurrences names a ↔ ∀ c ∈ calls a, c.swaps names = false)) := by
  induction hlen : a.length using Nat.strongRecOn generalizing a with
  | ind m ih =>
    cases ho : opened? a with
    | none => rw [bottomUp_eq_self ho, calls_eq_nil ho]; simp
    | some p =>
      obtain ⟨front, inner⟩ := p
      obtain ⟨k, unit, first, last, hc, hs, hu, hcalls⟩ := calls_wellFormed ho hw
      rw [hcalls] at hw
      -- the two timestamps, and what stands behind the call
      obtain ⟨hfirst, hfirst'⟩ :=
        ih _ (hlen ▸ trim_lt ho hs (by simp)) (a := Text.trim first) (fun c hc => hw c (by simp [hc])) rfl
      obtain ⟨hlast, hlast'⟩ :=
        ih _ (hlen ▸ trim_lt ho hs (by simp)) (a := Text.trim last) (fun c hc => hw c (by simp [hc])) rfl
      obtain ⟨hrest, hrest'⟩ :=
        ih _ (hlen ▸ drop_lt ho) (a := inner.drop (k + 1)) (fun c hc => hw c (List.mem_append_right _ hc)) rfl
      have hswaps : (Call.mk (some (inner.take k))).swaps names = false ↔
          occurrences names (Text.trim first) = [] ∨ occurrences names (Text.trim last) = [] := by
        simp only [Call.swaps, Call.parts_some, hs, List.map_cons, List.map_nil, Bool.and_eq_false_iff,
          Bool.not_eq_false', List.isEmpty_iff]
      rw [occurrences_call hf ho hc hs hu, occurrences_bottomUp_call hf ho hc hs]
      refine ⟨(List.perm_append_left_iff _).mpr ?_, fun hn => ?_⟩
      · exact ((hlast.append (hfirst.append hrest)).trans
          (by simpa only [List.append_assoc] using (List.perm_append_comm.append_right _)))
      · have hn' := (List.nodup_append.mp hn).2.1
        obtain ⟨hnf, hnlr, -⟩ := List.nodup_append.mp hn'
        obtain ⟨hnl, hnr, -⟩ := List.nodup_append.mp hnlr
        rw [List.append_cancel_left_eq, swapped_eq_iff hfirst hlast hn', ← hswaps, hfirst' hnf, hlast' hnl, hrest' hnr,
          hcalls]
        simp only [List.mem_cons, List.mem_append, or_imp, forall_and, forall_eq, and_assoc, List.cons_append]

end TimeDifference

/-! ## Both conversions -/

/-- **The order of names through both conversions.** The names stand once each in the text, outside of comments, and
are no words of the conversions; no amount of an interval and no argument of a call runs into a comment at its end.
Then the conversion of interval expressions keeps their order, and none is lost by the conversion of calls. It keeps
the order too exactly if no call has names in both of its timestamps. -/
theorem names_in_order_iff {names : List Text} {text mid out : Text} (hnames : names.Nodup)
    (hfresh : ∀ x ∈ names, Interval.Fresh x ∧ TimeDifference.Fresh x) (htext : occurrences names text = names)
    (hcomment : ∀ t, .region .comment t ∈ pieces text → occurrences names t = [])
    (hmid : Interval.convert text = .ok mid) (hout : TimeDifference.convert mid = .ok out)
    (hterms : ∀ e ∈ Interval.expressions text, ∀ t ∈ e.terms, leavesCommentOpen t.amount = false)
    (hcalls : ∀ c ∈ TimeDifference.calls mid, c.Closed) :
    occurrences names mid = names ∧ (occurrences names out).Perm names ∧
      (occurrences names out = names ↔ ∀ c ∈ TimeDifference.calls mid, c.swaps names = false) := by
  have hkept : occurrences names mid = names :=
    (Interval.occurrences_convert (fun x hx => (hfresh x hx).1) hmid hterms hcomment).trans htext
  obtain ⟨hok, herror⟩ := TimeDifference.convert_eq_bottomUp hcalls
  have hw : ∀ c ∈ TimeDifference.calls mid, c.WellFormed := Classical.byContradiction fun hno => by
    simp only [Classical.not_forall, exists_prop] at hno
    obtain ⟨e, he⟩ := herror hno
    rw [hout] at he
    cases he
  rw [hok hw, Except.ok.injEq] at hout
  obtain ⟨hperm, hiff⟩ := TimeDifference.occurrences_bottomUp (fun x hx => (hfresh x hx).2) hw
  rw [hkept] at hperm hiff
  rw [← hout]
  exact ⟨hkept, hperm, hiff hnames⟩

/-- Two names in one call change places; those of the interval expressions around it do not. -/
theorem names_not_in_order :
    let names := ["p1", "p2", "p3", "p4"].map String.toList
    let text := "select p1 + interval p2 day, timestampdiff(second, p3, p4)".toList
    let out := "select datetime(p1, p2 || ' days'), ((julianday(p4) - julianday(p3)) * 86400)".toList
    occurrences names text = names ∧ occurrences names out = ["p1", "p2", "p4", "p3"].map String.toList ∧
      ∃ mid, Interval.convert text = .ok mid ∧ TimeDifference.convert mid = .ok out ∧
        occurrences names mid = names ∧ ¬ ∀ c ∈ TimeDifference.calls mid, c.swaps names = false := by
  intro names text out
  have hmid : Interval.convert text =
      .ok "select datetime(p1, p2 || ' days'), timestampdiff(second, p3, p4)".toList :=
    eq_ok_of_toOption (by decide +kernel)
  have hout : TimeDifference.convert "select datetime(p1, p2 || ' days'), timestampdiff(second, p3, p4)".toList =
      .ok out := eq_ok_of_toOption (by decide +kernel)
  have htext : occurrences names text = names := by decide +kernel
  have hswapped : occurrences names out = ["p1", "p2", "p4", "p3"].map String.toList := by decide +kernel
  have hregions : pieces text = text.map .code := by decide +kernel
  obtain ⟨hkept, -, hiff⟩ := names_in_order_iff (by decide +kernel) (by decide +kernel) htext
    (fun t ht => by rw [hregions] at ht; simp at ht) hmid hout (by decide +kernel) (by
      have hparts : ∀ c ∈ TimeDifference.calls
          "select datetime(p1, p2 || ' days'), timestampdiff(second, p3, p4)".toList,
          ∀ part ∈ c.parts, leavesCommentOpen part = false := by decide +kernel
      exact hparts)
  refine ⟨htext, hswapped, _, hmid, hout, hkept, fun hno => ?_⟩
  have horder := hiff.mpr hno
  rw [hswapped] at horder
  exact absurd horder (by decide +kernel)

end SqlDialect
