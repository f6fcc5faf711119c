import TexLint.Proofs.Text.Splitting

/-!
# Where the pieces of a text stand

Splitting gives each piece with an offset. At this offset the piece stands in the text, and the
pieces follow each other.

## The model

* `Piece.StandsIn`: a piece is found at its offset in a text, whose own offset need not be zero.
* `Piece.EndsBefore`: a piece ends where another one begins, or before it.

## What is proved

* `Piece.StandsIn.trans`, `Piece.StandsIn.shift`: how offsets in parts of a text add up.
* `Piece.StandsIn.slice?`: slicing the text at the range of a piece gives the piece.
* `standsIn_split`, `pairwise_split`: the pieces of a text stand in it, one after the other.
* `standsIn_stripGroup`: what a group holds stands in it behind its first character.
-/

namespace TexLint

namespace Piece

/-- A piece is found at its offset in a text that begins at the given offset. -/
def StandsIn (v : Piece) (offset : Nat) (text : Text) : Prop :=
  ∃ before behind, text = before ++ v.text ++ behind ∧ v.offset = offset + byteLength before

/-- A piece ends where another one begins, or before it. -/
def EndsBefore (v w : Piece) : Prop := v.span.stop ≤ w.offset

variable {v w : Piece} {offset : Nat} {text : Text}

theorem standsIn_self (offset : Nat) (text : Text) :
    (⟨offset, text⟩ : Piece).StandsIn offset text :=
  ⟨[], [], by simp, rfl⟩

/-- What stands in a piece stands in all that the piece stands in. -/
theorem StandsIn.trans (hv : v.StandsIn w.offset w.text) (hw : w.StandsIn offset text) :
    v.StandsIn offset text := by
  obtain ⟨before, behind, hinner, hv⟩ := hv
  obtain ⟨before', behind', rfl, hw⟩ := hw
  refine ⟨before' ++ before, behind ++ behind', by simp [hinner], ?_⟩
  rw [hv, hw, byteLength_append, Nat.add_assoc]

theorem StandsIn.shift (hv : v.StandsIn offset text) (n : Nat) :
    (v.shift n).StandsIn (offset + n) text := by
  obtain ⟨before, behind, htext, hv⟩ := hv
  refine ⟨before, behind, htext, ?_⟩
  show v.offset + n = _
  omega

theorem StandsIn.append_left {a : Text} (hv : v.StandsIn (offset + byteLength a) text) :
    v.StandsIn offset (a ++ text) :=
  hv.trans (w := ⟨offset + byteLength a, text⟩) ⟨a, [], by simp, rfl⟩

theorem StandsIn.append_right (hv : v.StandsIn offset text) (b : Text) :
    v.StandsIn offset (text ++ b) :=
  hv.trans (w := ⟨offset, text⟩) ⟨[], b, by simp, rfl⟩

/-- A piece lies within the text in which it stands. -/
theorem StandsIn.le (hv : v.StandsIn offset text) :
    offset ≤ v.offset ∧ v.span.stop ≤ offset + byteLength text := by
  obtain ⟨before, behind, rfl, hv⟩ := hv
  show offset ≤ v.offset ∧ v.offset + byteLength v.text ≤ _
  rw [byteLength_append, byteLength_append]
  omega

/-- Slicing a text at the range of a piece gives the piece. -/
theorem StandsIn.slice? (hv : v.StandsIn 0 text) : slice? text v.span = some v.text := by
  obtain ⟨before, behind, rfl, hv⟩ := hv
  rw [Nat.zero_add] at hv
  rw [span, hv]
  exact slice?_append before v.text behind

end Piece

/-! ### Pieces between separators -/

section Split

variable {sep : Separator}

/-- The pieces that are put together from cuts stand in the text that has been cut, and they follow
each other. -/
theorem standsIn_joinCuts (p : Protection) (offset : Nat) (begun : Text) (cuts : List Cut)
    (last : Text) :
    (∀ v ∈ joinCuts p offset begun cuts last, v.StandsIn offset (begun ++ joinedText cuts last)) ∧
      (joinCuts p offset begun cuts last).Pairwise Piece.EndsBefore := by
  induction cuts generalizing p offset begun with
  | nil =>
    rw [joinCuts]
    refine ⟨?_, List.pairwise_singleton _ _⟩
    simpa [joinedText] using Piece.standsIn_self offset (begun ++ last)
  | cons cut cuts ih =>
    rw [joinCuts, joinedText_cons]
    split
    · -- The separator is protected: the piece goes on.
      simpa using ih ((p.after cut.before).after cut.separator) offset
        (begun ++ cut.before ++ cut.separator)
    · obtain ⟨hplaces, hpairwise⟩ := ih ((p.after cut.before).after cut.separator)
        (offset + byteLength (begun ++ cut.before) + byteLength cut.separator) []
      rw [List.nil_append] at hplaces
      constructor
      · intro v hv
        rcases List.mem_cons.mp hv with rfl | hv
        · have hself := Piece.standsIn_self offset (begun ++ cut.before)
          simpa using hself.append_right (cut.separator ++ joinedText cuts last)
        · have hrest := hplaces v hv
          rw [Nat.add_assoc, ← byteLength_append] at hrest
          simpa using hrest.append_left
      · refine List.pairwise_cons.mpr ⟨fun v hv => ?_, hpairwise⟩
        have hle := (hplaces v hv).le.1
        show offset + byteLength (begun ++ cut.before) ≤ v.offset
        omega

theorem split_eq_joinCuts {text : Text} (h : text ≠ []) :
    split sep text = joinCuts .start 0 [] (sep.cuts text).1 (sep.cuts text).2 := by
  rw [split, if_neg (by simpa using h)]

/-- The pieces of a text stand in it. -/
theorem standsIn_split (sep : Separator) (text : Text) :
    ∀ v ∈ split sep text, v.StandsIn 0 text := by
  by_cases h : text = []
  · subst h
    intro v hv
    cases hv
  · have hplaces := (standsIn_joinCuts .start 0 [] (sep.cuts text).1 (sep.cuts text).2).1
    rw [split_eq_joinCuts h]
    rwa [List.nil_append, joinedText_cuts] at hplaces

/-- The pieces of a text follow each other. -/
theorem pairwise_split (sep : Separator) (text : Text) :
    (split sep text).Pairwise Piece.EndsBefore := by
  by_cases h : text = []
  · subst h
    exact List.Pairwise.nil
  · rw [split_eq_joinCuts h]
    exact (standsIn_joinCuts .start 0 [] (sep.cuts text).1 (sep.cuts text).2).2

end Split

/-! ### Groups -/

/-- A text that closes a group ends with a brace. -/
theorem getLast?_of_endsBraceGroup {text : Text} {depth : Nat}
    (h : endsBraceGroup depth text = true) : text.getLast? = some '}' := by
  have hcons {c : Char} {rest : Text} (h : rest.getLast? = some '}') :
      (c :: rest).getLast? = some '}' := by
    rw [List.getLast?_cons, h]
    rfl
  fun_induction endsBraceGroup depth text with
  | case1 => cases h
  | case2 => cases h
  | case3 depth d rest ih => exact hcons (hcons (ih h))
  | case4 depth rest _ ih => exact hcons (ih h)
  | case5 rest => rw [List.isEmpty_iff.mp h]; rfl
  | case6 rest depth _ _ ih => exact hcons (ih h)
  | case7 depth c rest _ _ _ ih => exact hcons (ih h)

/-- What a group holds stands behind its first character. -/
theorem exists_stripGroup_append (c : Char) (rest : Text) :
    ∃ ending, rest = stripGroup (c :: rest) ++ ending := by
  have hstrip (closed : Bool) :
      ∃ ending, rest = (if closed then rest.dropLast else rest) ++ ending := by
    cases closed with
    | false => exact ⟨[], (List.append_nil rest).symm⟩
    | true =>
      obtain ⟨ending, hending⟩ := List.dropLast_prefix rest
      exact ⟨ending, hending.symm⟩
  exact hstrip _

/-- What a group holds stands in it behind its first character. -/
theorem standsIn_stripGroup (c : Char) (rest : Text) :
    (⟨c.utf8Size, stripGroup (c :: rest)⟩ : Piece).StandsIn 0 (c :: rest) := by
  obtain ⟨ending, hending⟩ := exists_stripGroup_append c rest
  exact ⟨[c], ending, by simpa using hending, by simp⟩

end TexLint
