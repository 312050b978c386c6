import SqlDialect.Proofs.Bytes.Scan

/-!
# Fragments and lists by byte offsets

`snippet` cuts the fragment for an error message. Its ends may lie anywhere, and are moved outward to the ends of
characters. `splitTopLevel` cuts a list at its separators.

* `snippet_eq`, `snippet_within`: between positions, and from within a character on.
* `splitTopLevel_eq`: the parts are those of the counterpart.
-/

namespace SqlDialect.Bytes

open Text

/-! ## Fragments -/

/-- The next offset to the left that lies between two characters. -/
def floorBoundary (text : Text) (i : Nat) : Checked Nat :=
  if (position? text i).isSome then return i
  else
    match _h : minus i 1 with
    | some before => floorBoundary text before
    | none => none
termination_by i
decreasing_by exact lt_of_minus _h

/-- The next offset to the right that lies between two characters. Behind the text there is none, and the search has
no end. -/
def ceilBoundary (text : Text) (i : Nat) : Checked Nat :=
  if (position? text i).isSome then return i
  else if i < byteLength text then ceilBoundary text (i + 1)
  else none
termination_by byteLength text - i

/-- The offset nearest to `i` in a range that must not be empty. -/
def clamp (i low high : Nat) : Checked Nat := if low ≤ high then some (max low (min i high)) else none

/-- The part of a text between two offsets, widened to whole characters. -/
def snippet (text : Text) (start stop : Nat) : Checked Text := do
  let start := min start (byteLength text)
  let stop ← clamp stop start (byteLength text)
  slice text (← floorBoundary text start) (← ceilBoundary text stop)

variable {text rest : Text} {c : Char} {i j k : Nat}

/-- Within a character there is no position. -/
theorem position?_within (h : text.drop i = c :: rest) (h₁ : 0 < k) (h₂ : k < c.utf8Size) :
    position? text (byteOffset text i + k) = none := by
  have htext : text = text.take i ++ c :: rest := by rw [← h, List.take_append_drop]
  rw [byteOffset]
  generalize text.take i = front at htext
  subst htext
  clear h
  induction front with
  | nil =>
    obtain ⟨k, rfl⟩ : ∃ m, k = m + 1 := ⟨k - 1, by omega⟩
    simp only [List.nil_append, byteLength, Nat.zero_add]
    rw [position?, if_pos h₂]
    exact Nat.succ_ne_zero k
  | cons d front ih =>
    obtain ⟨m, hm⟩ : ∃ m, byteLength (d :: front) + k = m + 1 := ⟨byteLength (d :: front) + k - 1, by omega⟩
    have hsub : m + 1 - d.utf8Size = byteLength front + k := by rw [← hm, byteLength]; omega
    have hle : ¬ m + 1 < d.utf8Size := by rw [← hm, byteLength]; omega
    rw [hm, List.cons_append, position?, if_neg hle, hsub, ih]
    · rfl
    · exact Nat.succ_ne_zero m

theorem floorBoundary_within (h : text.drop i = c :: rest) (hk : k < c.utf8Size) :
    floorBoundary text (byteOffset text i + k) = some (byteOffset text i) := by
  induction k with
  | zero =>
    rw [floorBoundary, Nat.add_zero, position?_byteOffset text (Nat.le_of_lt (lt_of_drop h))]
    rfl
  | succ k ih =>
    rw [floorBoundary, position?_within h (Nat.succ_pos k) hk, ← Nat.add_assoc, minus_of_le (Nat.succ_pos _)]
    exact ih (Nat.lt_of_succ_lt hk)

theorem floorBoundary_byteOffset (hi : i ≤ text.length) :
    floorBoundary text (byteOffset text i) = some (byteOffset text i) := by
  rw [floorBoundary, position?_byteOffset text hi]
  rfl

theorem ceilBoundary_byteOffset (hi : i ≤ text.length) :
    ceilBoundary text (byteOffset text i) = some (byteOffset text i) := by
  rw [ceilBoundary, position?_byteOffset text hi]
  rfl

/-- The fragment from an offset on starts at the position in front of the offset. -/
theorem snippet_of_floor {start : Nat} (hstart : start ≤ byteOffset text j)
    (hfloor : floorBoundary text start = some (byteOffset text i)) (hij : i ≤ j) (hj : j ≤ text.length) :
    snippet text start (byteOffset text j) = some (Text.slice text i j) := by
  have hstop := byteOffset_le text j
  have hmin : min start (byteLength text) = start := by omega
  have hmax : max start (min (byteOffset text j) (byteLength text)) = byteOffset text j := by omega
  rw [snippet, hmin, clamp, if_pos (by omega), hmax]
  simp only [Option.bind_eq_bind, Option.bind_some, hfloor, ceilBoundary_byteOffset hj, slice_byteOffset hij hj]

/-- The fragment from within a character on holds the whole character. -/
theorem snippet_within (h : text.drop i = c :: rest) (hk : k < c.utf8Size) (hij : i < j) (hj : j ≤ text.length) :
    snippet text (byteOffset text i + k) (byteOffset text j) = some (Text.slice text i j) := by
  have hle : byteOffset text (i + 1) ≤ byteOffset text j := byteOffset_mono hij
  rw [byteOffset_succ h] at hle
  exact snippet_of_floor (by omega) (floorBoundary_within h hk) (Nat.le_of_lt hij) hj

/-- The fragment between two positions. -/
theorem snippet_eq (hij : i ≤ j) (hj : j ≤ text.length) :
    snippet text (byteOffset text i) (byteOffset text j) = some (Text.slice text i j) :=
  snippet_of_floor (byteOffset_mono hij) (floorBoundary_byteOffset (Nat.le_trans hij hj)) hij hj

/-! ## Lists -/

/-- The parts of a list from the offset `start` on, where the offset `i` is reached at bracket depth `depth`. -/
def splitLoop (text : Text) (sep : Char) (depth start i : Nat) : Checked (List Text) :=
  if i < byteLength text then do
    let b ← byte? text i
    match _h : skipOpaque text i with
    | some (some next) => splitLoop text sep depth start next
    | some none =>
      if isOpener b then splitLoop text sep (depth + 1) start (i + 1)
      else if isCloser b then splitLoop text sep (depth - 1) start (i + 1)
      else if b = sep ∧ depth = 0 then do
        let part ← slice text start i
        return part :: (← splitLoop text sep depth (i + 1) (i + 1))
      else splitLoop text sep depth start (i + 1)
    | none => none
  else return [← sliceFrom text start]
termination_by byteLength text - i
decreasing_by
  · have := skipOpaque_lt _h
    omega
  all_goals omega

/-- The parts of a text between the separators outside brackets, literals and comments. -/
def splitTopLevel (text : Text) (sep : Char) : Checked (List Text) := splitLoop text sep 0 0 0

theorem splitLoop_of_byte {b : Char} (sep : Char) (depth start : Nat) (hb : byte? text i = some b) :
    splitLoop text sep depth start i = (do
      match ← skipOpaque text i with
      | some next => splitLoop text sep depth start next
      | none =>
        if isOpener b then splitLoop text sep (depth + 1) start (i + 1)
        else if isCloser b then splitLoop text sep (depth - 1) start (i + 1)
        else if b = sep ∧ depth = 0 then do
          let part ← slice text start i
          return part :: (← splitLoop text sep depth (i + 1) (i + 1))
        else splitLoop text sep depth start (i + 1)) := by
  rw [splitLoop, if_pos (lt_of_byte? hb), hb]
  simp only [Option.bind_eq_bind, Option.bind_some]
  rcases skipOpaque text i with _ | _ | next <;> rfl

theorem slice_add (h : text.drop i = c :: rest) (hj : j ≤ i) (n : Nat) :
    Text.slice text j (i + n + 1) = Text.slice text j i ++ c :: rest.take n := by
  have hlast : Text.slice text i (i + n + 1) = c :: rest.take n := by
    rw [Text.slice, Nat.add_assoc, List.take_add, h, List.take_succ_cons, List.drop_append_of_le_length,
      List.drop_eq_nil_of_le (List.length_take_le _ _), List.nil_append]
    rw [List.length_take]
    have := lt_of_drop h
    omega
  rw [← hlast, slice_append text hj (by omega)]

theorem slice_next (h : text.drop i = c :: rest) (hj : j ≤ i) :
    Text.slice text j (i + 1) = Text.slice text j i ++ [c] :=
  slice_add h hj 0

/-- The parts of a list, from a position on. -/
theorem splitLoop_eq {sep : Char} (hsep : ¬ Wide sep) (depth : Nat) (hij : j ≤ i) (hi : i ≤ text.length)
    (h : text.drop i = rest) :
    splitLoop text sep depth (byteOffset text j) (byteOffset text i) =
      some ((Text.slice text j i ++ (splitPieces sep depth (pieces rest)).1) ::
        (splitPieces sep depth (pieces rest)).2) := by
  fun_induction pieces rest generalizing i j depth with
  | case1 =>
    have hlen := List.drop_eq_nil_iff.mp h
    rw [splitLoop, if_neg (by rw [byteOffset_of_le hlen]; omega), sliceFrom_byteOffset (Nat.le_trans hij hi)]
    simp [splitPieces, Text.slice, List.take_of_length_le hlen]
  | case2 c rest kind n hr ih =>
    have hlt := lt_of_regionTail? hr
    obtain ⟨hle, hdrop⟩ := next_of_regionTail? h hr
    obtain ⟨b, hb⟩ := exists_byte? h
    rw [splitLoop_of_byte sep depth _ hb, skipOpaque_eq h, hr]
    simp only [Option.map_some, Option.bind_eq_bind, Option.bind_some]
    rw [ih depth (by omega) hle hdrop, slice_add h hij, splitPieces]
    simp only [List.append_assoc]
  | case3 c rest hr ih =>
    have hslice := slice_next h hij
    have hnext := fun depth => ih depth (Nat.le_succ_of_le hij) (lt_of_drop h) (drop_succ h)
    by_cases hw : Wide c
    · have hstep : splitLoop text sep depth (byteOffset text j) (byteOffset text i) =
          splitLoop text sep depth (byteOffset text j) (byteOffset text (i + 1)) :=
        step_wide h hw fun k b hb hwb => by
          rw [splitLoop_of_byte sep depth _ hb, skipOpaque_wide hb hwb]
          simp only [Option.bind_eq_bind, Option.bind_some, isOpener_of_wide hwb, isCloser_of_wide hwb,
            ne_of_wide hwb hsep, false_and, if_false, Bool.false_eq_true]
      have hpieces : splitPieces sep depth (.code c :: pieces rest) =
          (c :: (splitPieces sep depth (pieces rest)).1, (splitPieces sep depth (pieces rest)).2) := by
        simp [splitPieces, isOpener_of_wide hw, isCloser_of_wide hw, ne_of_wide hw hsep]
      rw [hstep, hnext depth, hpieces, hslice]
      simp
    · rw [splitLoop_of_byte sep depth _ (byte?_byteOffset h hw), skipOpaque_eq h, hr,
        ← byteOffset_succ_of_not_wide h hw]
      simp only [Option.map_none, Option.bind_eq_bind, Option.bind_some, splitPieces]
      split
      · rw [hnext, hslice]
        simp
      · split
        · rw [hnext, hslice]
          simp
        · split
          · rw [slice_byteOffset hij hi, ih depth (Nat.le_refl _) (lt_of_drop h) (drop_succ h)]
            simp [Text.slice]
          · rw [hnext, hslice]
            simp

/-- The parts of a list. -/
theorem splitTopLevel_eq {sep : Char} (hsep : ¬ Wide sep) (text : Text) :
    splitTopLevel text sep = some (SqlDialect.splitTopLevel text sep) := by
  have h := splitLoop_eq hsep 0 (Nat.le_refl 0) (Nat.zero_le text.length) List.drop_zero
  rw [byteOffset_zero] at h
  rw [splitTopLevel, h]
  simp [SqlDialect.splitTopLevel, Text.slice]

end SqlDialect.Bytes
