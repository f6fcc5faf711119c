import TexLint.Proofs.Text.Fields
import TexLint.Proofs.Text.Pieces

/-!
# The commas that divide a text

A separator is a comma with the whitespace around it, and it counts only if nothing in it is
protected. This module says without separators where a text is divided: at each comma that stands
in no group and behind no unpaired backslash.

## The model

* `Divides`: the comma at a place divides a text. `dividingCommas` lists these places.
* `stretches`: what stands between places in a text.

## What is proved

* `divides_append_iff`: a comma divides a text where the scan does not protect it.
* `commaFields_eq_stretches`: the fields of a text are what stands between its dividing commas.
* `map_trim_split_parameter`: trimmed, so are the pieces of the text.
-/

namespace TexLint

/-! ### The specification -/

/-- The character at a place is a comma, in no group and not behind an unpaired backslash. -/
def Divides (text : Text) (i : Nat) : Prop :=
  text[i]? = some ',' ∧ ¬ InGroup (text.take i) ',' (text.drop (i + 1)) ∧
    ¬ EndsEscaping (text.take i)

/-- A comma is in a group, or behind an unpaired backslash, if the scan protects it. -/
theorem Protection.protects_comma_eq_false_iff (before behind : Text) :
    (start.after before).protects ',' = false ↔
      ¬ InGroup before ',' behind ∧ ¬ EndsEscaping before := by
  have hcomma : isWhitespace ',' = false := by decide
  rw [← not_or, ← Bool.not_eq_true, protects_iff before ',' behind, ProtectedChar,
    and_iff_left hcomma]

instance (text : Text) : DecidablePred (Divides text) := fun i =>
  decidable_of_iff
    (text[i]? = some ',' ∧ (Protection.start.after (text.take i)).protects ',' = false)
    (and_congr_right fun _ => Protection.protects_comma_eq_false_iff _ _)

/-- The places of the commas that divide a text. -/
def dividingCommas (text : Text) : List Nat := (List.range text.length).filter (Divides text ·)

/-- What stands in a text before, between and behind single characters at the given places. -/
def stretches (text : Text) (start : Nat) : List Nat → List Text
  | [] => [text.drop start]
  | i :: places => (text.drop start).take (i - start) :: stretches text (i + 1) places

/-! ### Fields -/

theorem length_stretches (text : Text) (start : Nat) (places : List Nat) :
    (stretches text start places).length = places.length + 1 := by
  induction places generalizing start with
  | nil => rfl
  | cons i places ih => rw [stretches, List.length_cons, ih, List.length_cons]

/-- A comma divides a text where the scan does not protect it. -/
theorem divides_append_iff (before : Text) (c : Char) (behind : Text) :
    Divides (before ++ c :: behind) before.length ↔
      c = ',' ∧ (Protection.start.after before).protects c = false := by
  have hget : (before ++ c :: behind)[before.length]? = some c := by simp
  have hdrop : (before ++ c :: behind).drop (before.length + 1) = behind := by
    rw [List.append_cons, List.drop_left' (by simp)]
  rw [Divides, hget, List.take_left, hdrop, Option.some_inj]
  refine and_congr_right ?_
  rintro rfl
  exact (Protection.protects_comma_eq_false_iff before behind).symm

/-- Behind a beginning of a text, the fields are what stands between the commas that are still to
come, where the first field has begun at an earlier place. -/
theorem commaFields_after (before rest : Text) {start : Nat} (hstart : start ≤ before.length) :
    commaFields (Protection.start.after before) (before.drop start) rest =
      stretches (before ++ rest) start
        ((List.range' before.length rest.length).filter (Divides (before ++ rest) ·)) := by
  induction rest generalizing before start with
  | nil => rw [commaFields, List.append_nil, List.length_nil, List.range'_zero, List.filter_nil,
      stretches]
  | cons c rest ih =>
    have hnext : (Protection.start.after before).next c =
        Protection.start.after (before ++ [c]) := by
      rw [Protection.after_append, Protection.after_cons, Protection.after_nil]
    have hlength : (before ++ [c]).length = before.length + 1 := by simp
    have hih {start : Nat} (hle : start ≤ (before ++ [c]).length) := ih (before ++ [c]) hle
    rw [← List.append_cons, hlength] at hih
    rw [List.length_cons, List.range'_succ, List.filter_cons]
    by_cases hc : Divides (before ++ c :: rest) before.length
    · -- The field ends here, and the next one begins behind the comma.
      have hfield : ((before ++ c :: rest).drop start).take (before.length - start) =
          before.drop start := by
        rw [List.drop_append_of_le_length hstart, List.take_left' List.length_drop]
      have hbegun : (before ++ [c]).drop (before.length + 1) = [] := by
        rw [← hlength, List.drop_length]
      rw [if_pos (decide_eq_true hc), commaFields, if_pos ((divides_append_iff _ _ _).mp hc),
        stretches, hfield, hnext, ← hih (Nat.le_refl _), hbegun]
    · have hbegun : (before ++ [c]).drop start = before.drop start ++ [c] :=
        List.drop_append_of_le_length hstart
      rw [if_neg (by simpa using hc), commaFields, if_neg (mt (divides_append_iff _ _ _).mpr hc),
        hnext, ← hih (Nat.le_succ_of_le hstart), hbegun]

/-- The fields of a text are what stands between its dividing commas. -/
theorem commaFields_eq_stretches (text : Text) :
    commaFields .start [] text = stretches text 0 (dividingCommas text) := by
  rw [dividingCommas, List.range_eq_range']
  exact commaFields_after [] text (Nat.le_refl 0)

/-! ### Pieces -/

/-- Splitting a text cuts it at the commas that divide it: there is one piece more than there are
such commas, the pieces are what stands before, between and behind them when both are trimmed, and
the names in the text are those that stand there. -/
theorem map_trim_split_parameter {text : Text} (h : text ≠ []) :
    (split .parameter text).length = (dividingCommas text).length + 1 ∧
    (split .parameter text).map (trim ·.text) =
      (stretches text 0 (dividingCommas text)).map trim ∧
    namesIn text = (stretches text 0 (dividingCommas text)).filterMap fieldName? := by
  have hpieces : (split .parameter text).map (trim ·.text) =
      (stretches text 0 (dividingCommas text)).map trim := by
    rw [split_eq_joinCuts h, ← commaFields_eq_stretches]
    exact map_trim_joinCuts .start 0 [] [] text
  refine ⟨?_, hpieces, ?_⟩
  · simpa [length_stretches] using congrArg List.length hpieces
  · rw [namesIn_eq, commaFields_eq_stretches]

/-- Of the five commas in `a\ , b\,{c,d} ,{e,f` the first and the fourth one divide it. The others
stand behind a backslash or in a group, which need not be closed. -/
theorem map_trim_split_parameter_mixed :
    let text := "a\\ , b\\,\x7bc,d\x7d ,\x7be,f".toList
    text ≠ [] ∧ dividingCommas text = [3, 14] ∧ (split .parameter text).length = 3 ∧
      (split .parameter text).map (trim ·.text) =
        ["a\\".toList, "b\\,\x7bc,d\x7d".toList, "\x7be,f".toList] := by
  intro text
  have htext : text ≠ [] := by decide
  have hcommas : dividingCommas text = [3, 14] := by decide +kernel
  obtain ⟨hlength, hpieces, -⟩ := map_trim_split_parameter htext
  refine ⟨htext, hcommas, ?_, ?_⟩
  · rw [hlength, hcommas]
    rfl
  · rw [hpieces, hcommas]
    decide +kernel

end TexLint
