import Mathlib.Data.List.Basic
import SqlDialect.Proofs.View.Header

/-!
# Accounts with quoted names

The server exports an account as two names in backquotes, and such a name may hold any character but a backquote. The
reader of headers knows no quotes: it takes an account up to the next space, and what stands behind the space in a name
has to be read as further options. A backquote can only stand in the value of an option, so the reading stops in front
of the last one of an account or right behind it.

* `readOptions_quote`: where the reading of options is with respect to a backquote.
* `normalizeHeader_account_iff`: an exported header becomes the plain one exactly if its accounts can be read.
-/

namespace SqlDialect.View

/-! ## Exported headers -/

/-- An option that sets the account by its user and host names, as it is written, with the gap behind it. -/
structure AccountOption where
  keyword : Text
  before : Text
  after : Text
  user : Text
  host : Text
  gap : Text
  lower_keyword : Text.lower keyword = Text.lower definerWord
  isGap_before : ∀ c ∈ before, isGap c = true
  isGap_after : ∀ c ∈ after, isGap c = true
  user_plain : '\x60' ∉ user
  host_plain : '\x60' ∉ host
  isGap_gap : IsGap gap

namespace AccountOption

/-- The quoted names up to the last backquote. -/
def names (a : AccountOption) : Text := '\x60' :: (a.user ++ '\x60' :: '@' :: '\x60' :: a.host)

/-- The option up to the last backquote. -/
def front (a : AccountOption) : Text := (a.keyword ++ a.before) ++ '=' :: (a.after ++ a.names)

/-- The option as it is written. -/
def text (a : AccountOption) : Text := a.front ++ '\x60' :: a.gap

/-- The option is read as one or more options, up to its end. -/
def Read (a : AccountOption) : Prop := ∃ os, OptionsWritten os a.text

end AccountOption

/-- The texts that options are exported as, the given accounts among them, each with a gap behind it. -/
inductive ExportedOptions : List AccountOption → Text → Prop where
  | nil : ExportedOptions [] []
  | option {o : HeaderOption} {v g t : Text} {accounts : List AccountOption} (h : o.Written v) (hg : IsGap g)
      (hs : ExportedOptions accounts t) : ExportedOptions accounts (v ++ (g ++ t))
  | account (a : AccountOption) {t : Text} {accounts : List AccountOption} (hs : ExportedOptions accounts t) :
      ExportedOptions (a :: accounts) (a.text ++ t)

/-- The texts that a view is exported as: its header with the given accounts, and its body. -/
inductive Exported (accounts : List AccountOption) (body : Text) : Text → Prop where
  | mk {replaced : Bool} {t r os t' : Text} (hcreate : WordWritten createWord t) (hreplace : ReplaceWritten replaced r)
      (hoptions : ExportedOptions accounts os) (hview : WordWritten viewWord t')
      (hbody : body.head?.any isGap = false) : Exported accounts body (t ++ (r ++ (os ++ (t' ++ body))))

/-! ## Backquotes in options -/

/-- A character that does not stand in the first of two texts stands in the second. -/
theorem cut_of_not_mem {c : Char} {a b x z : Text} (h : a ++ b = x ++ c :: z) (ha : c ∉ a) :
    ∃ y, x = a ++ y ∧ b = y ++ c :: z := by
  rcases append_eq_append_cons h with hcut | ⟨y, rfl, -⟩
  · exact hcut
  · exact absurd (by simp) ha

section Quotes

variable {word t v g x z rest : Text} {o : HeaderOption} {os : List HeaderOption}

theorem not_mem_gap {c : Char} (hg : ∀ d ∈ g, isGap d = true) (hc : isGap c = false) : c ∉ g := fun hm => by
  rw [hg c hm] at hc
  cases hc

theorem not_mem_word {c : Char} (hv : Text.lower v = Text.lower word) (hw : ∀ d ∈ word, isWord d = true)
    (hc : isWord c = false) : c ∉ v := fun hm => by
  rw [isWord_of_lower_eq hv hw c hm] at hc
  cases hc

theorem isGap_of_not_isSpace {c : Char} (h : isSpace c = false) : isGap c = false := by
  rw [Bool.eq_false_iff]
  intro hc
  rw [isSpace_of_isGap hc] at h
  cases h

theorem WordWritten.not_mem_quote {i : Char} (h : WordWritten word t) (hw : Spelled word i) : '\x60' ∉ t := by
  obtain ⟨v, g, rfl, hv, hg⟩ := h
  have hword := not_mem_word hv hw.isWord (by decide : isWord '\x60' = false)
  have hgap := not_mem_gap hg.2 (by decide : isGap '\x60' = false)
  simp [hword, hgap]

/-- **A backquote in an option** stands in the value behind an equals sign, where no space is. -/
theorem HeaderOption.Written.quote (h : o.Written (x ++ '\x60' :: z)) :
    ∃ p g value, x = p ++ '=' :: (g ++ value) ∧ (∀ c ∈ g, isGap c = true) ∧
      ∀ c ∈ value ++ '\x60' :: z, isSpace c = false := by
  have hgap : isGap '\x60' = false := by decide
  have hword : isWord '\x60' = false := by decide
  generalize hv : x ++ '\x60' :: z = v at h
  have hmem : '\x60' ∈ v := by simp [← hv]
  cases h with
  | algorithm h =>
    obtain ⟨w, g, g', rfl, hw, hg, hg', -, hname⟩ := h
    have hw := not_mem_word hw (spelled_word (.algorithm [])).isWord hword
    have hname : '\x60' ∉ _ := fun hm => absurd (hname _ hm) (by decide)
    simp [hw, not_mem_gap hg hgap, not_mem_gap hg' hgap, hname] at hmem
  | @security runAs t t' w h h' hw =>
    have ht := h.not_mem_quote (spelled_word (.security runAs))
    have ht' := h'.not_mem_quote (spelled_of_mem (by simp [keywords]) : Spelled securityWord 's')
    have hw := not_mem_word hw (by cases runAs <;> decide) hword
    simp [ht, ht', hw] at hmem
  | @definer account _ h =>
    obtain ⟨w, g, g', rfl, hw, hg, hg', -, haccount⟩ := h
    have hw := not_mem_word hw (spelled_word (.definer [])).isWord hword
    have hfront : '\x60' ∉ w ++ (g ++ '=' :: g') := by simp [hw, not_mem_gap hg hgap, not_mem_gap hg' hgap]
    obtain ⟨value, rfl, rfl⟩ :=
      cut_of_not_mem (a := w ++ (g ++ '=' :: g')) (b := account) (by rw [hv]; simp) hfront
    exact ⟨w ++ g, g', value, by simp, hg', fun c hc => by simpa using haccount c hc⟩

/-- A backquote with a gap behind it stands behind an option or ends it. -/
theorem HeaderOption.Written.cut {g' s : Text} (hv : o.Written v) (hg : IsGap g) (hg' : IsGap g')
    (h : v ++ (g ++ s) = x ++ '\x60' :: (g' ++ rest)) :
    (∃ y, x = v ++ (g ++ y) ∧ s = y ++ '\x60' :: (g' ++ rest)) ∨ v = x ++ ['\x60'] ∧ g ++ s = g' ++ rest := by
  have hquote : '\x60' ∉ g := not_mem_gap hg.2 (by decide)
  rcases append_eq_append_cons h with ⟨y, rfl, hy⟩ | ⟨z, rfl, hy⟩
  · obtain ⟨y', rfl, hs⟩ := cut_of_not_mem hy hquote
    exact .inl ⟨y', rfl, hs⟩
  · -- the value ends at the first space behind the backquote
    obtain ⟨p, g₁, value, -, -, hspace⟩ := hv.quote
    cases z with
    | nil => exact .inr ⟨rfl, hy.symm⟩
    | cons c z =>
      obtain ⟨c', g', rfl⟩ := List.exists_cons_of_ne_nil hg'.1
      rw [List.cons_append, List.cons_append, List.cons.injEq] at hy
      have hc : isSpace c' = false := by
        rw [hy.1]
        exact hspace c (by simp)
      rw [isSpace_of_isGap (hg'.2 c' List.mem_cons_self)] at hc
      cases hc

/-! ## Reading options -/

theorem OptionsWritten.append {os' : List HeaderOption} {t' : Text} (h : OptionsWritten os t)
    (h' : OptionsWritten os' t') : OptionsWritten (os ++ os') (t ++ t') := by
  induction h with
  | nil => exact h'
  | cons hv hg _ ih =>
    rw [List.append_assoc, List.append_assoc]
    exact .cons hv hg ih

/-- The options in a text with a backquote and a gap at its end: the value of the last one has no space. -/
theorem OptionsWritten.quote (h : OptionsWritten os (x ++ '\x60' :: g)) (hg : IsGap g) :
    ∃ p g' value, x = p ++ '=' :: (g' ++ value) ∧ (∀ c ∈ g', isGap c = true) ∧
      ∀ c ∈ value ++ ['\x60'], isSpace c = false := by
  generalize ht : x ++ '\x60' :: g = t at h
  induction h generalizing x with
  | nil => simp at ht
  | @cons o os v g₁ t hv hg₁ _ ih =>
    rw [← List.append_nil g] at ht
    rcases hv.cut hg₁ hg ht.symm with ⟨y, rfl, hy⟩ | ⟨rfl, -⟩
    · rw [List.append_nil] at hy
      obtain ⟨p, g', value, rfl, hgap, hspace⟩ := ih hy.symm
      exact ⟨v ++ (g₁ ++ p), g', value, by simp, hgap, hspace⟩
    · exact hv.quote

theorem readOptions_cons (hv : o.Written v) (hg : IsGap g) (hr : rest.head?.any isGap = false) :
    readOptions (v ++ (g ++ rest)) = (o :: (readOptions rest).1, (readOptions rest).2) := by
  have hlt : rest.length < (v ++ (g ++ rest)).length := by
    have := List.length_pos_iff.mpr hg.1
    simp only [List.length_append]
    omega
  rw [readOptions, readOption?_iff.mpr ⟨v, g, rfl, hv, hg, hr⟩]
  simp only [if_pos hlt]

/-- Written options are read one by one, and the reading goes on behind them. -/
theorem readOptions_append (hs : OptionsWritten os t) (hr : rest.head?.any isGap = false) :
    readOptions (t ++ rest) = (os ++ (readOptions rest).1, (readOptions rest).2) := by
  induction hs with
  | nil => rfl
  | @cons o os v g t hv hg hs ih =>
    rw [List.append_assoc, List.append_assoc, readOptions_cons hv hg (hs.head? hr), ih]
    rfl

/-- **The reading of options** stops in front of a backquote with a gap behind it, or what is up to the end of the gap
is options. -/
theorem readOptions_quote (hg : IsGap g) (hr : rest.head?.any isGap = false) (x : Text) :
    (∃ os, OptionsWritten os (x ++ '\x60' :: g)) ∨
      ∃ y, (readOptions (x ++ '\x60' :: (g ++ rest))).2 = y ++ '\x60' :: (g ++ rest) := by
  have hgap : (g ++ rest).takeWhile isGap = g := (span_eq_iff.mpr ⟨rfl, hg.2, hr⟩).1
  induction hlen : x.length using Nat.strongRecOn generalizing x with
  | ind n ih =>
    cases hread : readOption? (x ++ '\x60' :: (g ++ rest)) with
    | none => exact .inr ⟨x, by rw [readOptions, hread]⟩
    | some p =>
      obtain ⟨o, behind⟩ := p
      obtain ⟨v, g₁, htext, hv, hg₁, hbehind⟩ := readOption?_iff.mp hread
      rcases hv.cut hg₁ hg htext.symm with ⟨y, rfl, rfl⟩ | ⟨rfl, hgaps⟩
      · have hshort : y.length < n := by
          have := List.length_pos_iff.mpr hg₁.1
          rw [← hlen]
          simp only [List.length_append]
          omega
        rw [htext, readOptions_cons hv hg₁ hbehind]
        rcases ih _ hshort y rfl with ⟨os, hos⟩ | hstop
        · refine .inl ⟨o :: os, ?_⟩
          rw [List.append_assoc, List.append_assoc]
          exact .cons hv hg₁ hos
        · exact .inr hstop
      · -- two gaps at one place
        have hspan := (span_eq_iff.mpr ⟨rfl, hg₁.2, hbehind⟩).1
        rw [hgaps, hgap] at hspan
        refine .inl ⟨[o], ?_⟩
        have hone := OptionsWritten.cons hv hg .nil
        rwa [List.append_nil, List.append_assoc] at hone

end Quotes

/-! ## Accounts -/

namespace AccountOption

variable {a : AccountOption}

theorem head?_names (a : AccountOption) (t : Text) : (a.names ++ t).head?.any isGap = false := by
  rw [names, List.cons_append, List.head?_cons]
  decide

theorem head?_text (a : AccountOption) (t : Text) : (a.text ++ t).head?.any isGap = false := by
  have hdefiner : Spelled definerWord 'd' := spelled_of_mem (by simp [keywords])
  rw [text, front, List.append_assoc, List.append_assoc, List.append_assoc]
  exact not_gap_of_word a.lower_keyword hdefiner.ne_nil hdefiner.isWord _

/-- An account without spaces is read. -/
theorem read_of_no_space (h : ∀ c ∈ a.user ++ a.host, isSpace c = false) : a.Read := by
  have hnames : ∀ c ∈ a.names ++ ['\x60'], (!isSpace c) = true := by
    intro c hc
    rw [Bool.not_eq_true']
    simp only [names, List.cons_append, List.append_assoc, List.mem_cons, List.mem_append, List.not_mem_nil,
      or_false] at hc
    rcases hc with rfl | hc | rfl | rfl | rfl | hc | rfl
    · decide
    · exact h c (List.mem_append_left _ hc)
    · decide
    · decide
    · decide
    · exact h c (List.mem_append_right _ hc)
    · decide
  have hvalue : ValueWritten definerWord (fun c => !isSpace c) (a.names ++ ['\x60']) (a.front ++ ['\x60']) :=
    ⟨a.keyword, a.before, a.after, by simp [front], a.lower_keyword, a.isGap_before, a.isGap_after, by simp, hnames⟩
  have hone := OptionsWritten.cons (.definer hvalue) a.isGap_gap .nil
  rw [List.append_nil, List.append_assoc] at hone
  exact ⟨_, hone⟩

/-- An account that is read has no space, if its names hold no equals sign: the value of the last option that is read
starts behind the first one. -/
theorem no_space_of_read (hequals : '=' ∉ a.user ++ a.host) (h : a.Read) :
    ∀ c ∈ a.user ++ a.host, isSpace c = false := by
  obtain ⟨os, hos⟩ := h
  obtain ⟨p, g, value, hcut, hg, hspace⟩ := hos.quote a.isGap_gap
  have hgap : isGap '=' = false := by decide
  have hkeyword : '=' ∉ a.keyword ++ a.before := by
    have hdefiner : Spelled definerWord 'd' := spelled_of_mem (by simp [keywords])
    have hword := not_mem_word a.lower_keyword hdefiner.isWord (by decide : isWord '=' = false)
    simp [hword, not_mem_gap a.isGap_before hgap]
  have hnames : '=' ∉ a.after ++ a.names := by
    rw [List.mem_append, not_or] at hequals
    simp [names, not_mem_gap a.isGap_after hgap, hequals]
  obtain ⟨-, -, hvalue⟩ := (List.append_cons_inj_of_notMem hkeyword hnames).mp hcut
  have hhead : (value ++ ['\x60']).head?.any isGap = false := by
    cases value with
    | nil => decide
    | cons c value => exact isGap_of_not_isSpace (hspace c List.mem_cons_self)
  have hspan := (span_eq_iff.mpr ⟨rfl, a.isGap_after, a.head?_names ['\x60']⟩).2
  rw [← List.append_assoc, hvalue, List.append_assoc, (span_eq_iff.mpr ⟨rfl, hg, hhead⟩).2] at hspan
  rw [hspan] at hspace
  intro c hc
  refine hspace c ?_
  simp only [names, List.mem_append, List.mem_cons]
  rcases List.mem_append.mp hc with hc | hc <;> simp [hc]

end AccountOption

/-! ## The header -/

section Header

variable {accounts : List AccountOption} {t t' body rest : Text}

theorem ExportedOptions.head? (hs : ExportedOptions accounts t) (hr : rest.head?.any isGap = false) :
    (t ++ rest).head?.any isGap = false := by
  cases hs with
  | nil => exact hr
  | @option o v g t accounts h hg hs =>
    obtain ⟨w, u, rfl, hw⟩ := h.starts
    rw [List.append_assoc, List.append_assoc]
    exact not_gap_of_word hw (spelled_word o).ne_nil (spelled_word o).isWord _
  | account a hs =>
    rw [List.append_assoc]
    exact a.head?_text _

/-- Exported options are read up to their end if every account is, and else up to a place in front of a backquote. -/
theorem ExportedOptions.read (hs : ExportedOptions accounts t) (hr : rest.head?.any isGap = false) :
    (∃ os, OptionsWritten os t) ∧ (∀ a ∈ accounts, a.Read) ∨
      (¬∀ a ∈ accounts, a.Read) ∧ ∃ y z, (readOptions (t ++ rest)).2 = y ++ '\x60' :: (z ++ rest) := by
  induction hs with
  | nil => exact .inl ⟨⟨[], .nil⟩, by simp⟩
  | @option o v g t accounts h hg hs ih =>
    rw [List.append_assoc, List.append_assoc, readOptions_cons h hg (hs.head? hr)]
    exact ih.imp_left fun ⟨⟨os, hos⟩, hread⟩ => ⟨⟨o :: os, .cons h hg hos⟩, hread⟩
  | @account a t accounts hs ih =>
    by_cases ha : a.Read
    · obtain ⟨os, hos⟩ := ha
      rw [List.append_assoc, readOptions_append hos (hs.head? hr), List.forall_mem_cons]
      refine ih.imp (fun ⟨⟨os', hos'⟩, hread⟩ => ⟨⟨os ++ os', hos.append hos'⟩, ⟨os, hos⟩, hread⟩) ?_
      exact fun ⟨hread, hstop⟩ => ⟨fun h => hread h.2, hstop⟩
    · refine .inr ⟨fun h => ha (h a List.mem_cons_self), ?_⟩
      obtain ⟨os, hos⟩ | ⟨y, hy⟩ := readOptions_quote a.isGap_gap (hs.head? hr) a.front
      · exact absurd ⟨os, hos⟩ ha
      · refine ⟨y, a.gap ++ t, ?_⟩
        rw [AccountOption.text, List.append_assoc, List.append_assoc, List.cons_append, List.append_assoc, hy]

theorem ExportedOptions.skipOrReplace? (hs : ExportedOptions accounts t) (hv : WordWritten viewWord t') (body : Text) :
    skipOrReplace? (t ++ (t' ++ body)) = none := by
  cases hs with
  | nil => exact hv.skipOrReplace? spelled_view (by decide) body
  | option ho =>
    rw [List.append_assoc]
    exact ho.skipOrReplace? _
  | account a =>
    have hdefiner : Spelled definerWord 'd' := spelled_of_mem (by simp [keywords])
    rw [AccountOption.text, AccountOption.front, List.append_assoc, List.append_assoc, List.append_assoc,
      List.append_assoc]
    exact skipOrReplace?_of_word a.lower_keyword hdefiner (by decide) _

/-- **Exported accounts.** An exported header becomes the plain one with its body exactly if its accounts can be read.
This is so for an account without spaces, and, if its names hold no equals sign, only for such a one. -/
theorem normalizeHeader_account_iff {text : Text} (h : Exported accounts body text) :
    (normalizeHeader text = plainHeader ++ body ↔ ∀ a ∈ accounts, a.Read) ∧
      (∀ a ∈ accounts, (∀ c ∈ a.user ++ a.host, isSpace c = false) → a.Read) ∧
      ∀ a ∈ accounts, '=' ∉ a.user ++ a.host → a.Read → ∀ c ∈ a.user ++ a.host, isSpace c = false := by
  refine ⟨?_, fun a _ => a.read_of_no_space, fun a _ => a.no_space_of_read⟩
  cases h with
  | @mk replaced t r os t' hcreate hreplace hoptions hview hbody =>
    have hhead := hview.head? spelled_view body
    rcases hoptions.read hhead with ⟨⟨options, hos⟩, hread⟩ | ⟨hnot, y, z, hstop⟩
    · have hwritten : (Header.mk replaced options body).Written _ := .mk hcreate hreplace hos hview hbody
      exact iff_of_true (normalizeHeader_written hwritten) hread
    · refine iff_of_false (fun hplain => ?_) hnot
      have hheader := Header.read_options hcreate hreplace (hoptions.head? hhead) (hoptions.skipOrReplace? hview body)
      rw [normalizeHeader, trimStart_create hcreate, hheader] at hplain
      cases hword : expectWord viewWord (readOptions (os ++ (t' ++ body))).2 with
      | error e =>
        -- the definition is left as it is, so it would be plain already
        rw [hword] at hplain hheader
        have hwritten := plainHeader_written hbody
        rw [← hplain, ← Header.read_eq_ok_iff] at hwritten
        cases hheader.symm.trans hwritten
      | ok behind =>
        rw [hword] at hplain
        have hbehind : behind = body := List.append_cancel_left hplain
        obtain ⟨w, hw, hwritten, -⟩ := expectWord_iff.mp hword
        rw [hstop, hbehind] at hw
        have hquote : '\x60' ∈ w := by
          have hcut : (y ++ '\x60' :: (z ++ t')) ++ body = w ++ body := by rw [← hw]; simp
          rw [← List.append_cancel_right hcut]
          simp
        exact hwritten.not_mem_quote spelled_view hquote

/-- The user's name holds a space, so the header stays as it is. -/
theorem normalizeHeader_account_iff_space :
    let a : AccountOption :=
      { keyword := "DEFINER".toList, before := [], after := [], user := "lab user".toList, host := "%".toList,
        gap := [' '], lower_keyword := by decide +kernel, isGap_before := by simp, isGap_after := by simp,
        user_plain := by decide, host_plain := by decide, isGap_gap := ⟨by simp, by decide⟩ }
    let text := "CREATE SQL SECURITY INVOKER DEFINER=\x60lab user\x60@\x60%\x60 VIEW v AS select 1".toList
    Exported [a] "v AS select 1".toList text ∧ ¬a.Read ∧ normalizeHeader text = text ∧
      normalizeHeader text ≠ plainHeader ++ "v AS select 1".toList := by
  intro a text
  have hlower : ∀ p ∈ [(createWord, "CREATE"), (sqlWord, "SQL"), (securityWord, "SECURITY"), (viewWord, "VIEW")],
      Text.lower p.2.toList = Text.lower p.1 := by decide +kernel
  simp only [List.forall_mem_cons] at hlower
  obtain ⟨hcreate, hsql, hsecurity, hview, -⟩ := hlower
  have hblank : IsGap [' '] := ⟨by simp, by decide⟩
  have hword : ∀ {word v : Text}, Text.lower v = Text.lower word → WordWritten word (v ++ [' ']) :=
    fun hv => ⟨_, _, rfl, hv, hblank⟩
  have hinvoker : Text.lower "INVOKER".toList = Text.lower Security.invoker.name.toList := rfl
  have hoptions : ExportedOptions [a] _ :=
    .option (.security (hword hsql) (hword hsecurity) hinvoker) hblank (.account a .nil)
  have hexported : Exported [a] "v AS select 1".toList text := .mk (hword hcreate) .absent hoptions (hword hview) rfl
  obtain ⟨hiff, -, hspaces⟩ := normalizeHeader_account_iff hexported
  have hnot : ¬a.Read := fun hread => by
    have hspace := hspaces a (by simp) (by decide) hread ' ' (by decide)
    exact absurd hspace (by decide)
  exact ⟨hexported, hnot, by decide +kernel, fun hplain => hnot (hiff.mp hplain a (by simp))⟩

end Header

end SqlDialect.View
