import TexLint.Document.Options
import TexLint.Manuscript.Import
import Mathlib.Data.List.Basic
import Mathlib.Data.List.TakeWhile

/-!
# What splitting keeps

A text that is split into names or options loses separators and whitespace, and nothing else:
whatever else stands in it stands in one of the parts, in the same order.

## The model

* `joinedText` puts a text together again from its cuts.
* `namesIn` are the names of packages in a text, `optionPairs` the options in bracket groups, one
  for each piece.

## What is proved

* `joinedText_cuts`: the cuts of a text make up the text.
* `filter_split`: the characters that no separator takes are all in the pieces.
* `filter_namesIn`, `filter_optionPairs`: so they are in the names and in the options.
* `count_namesIn`, `count_optionPairs`: each of them is there as often as before.
-/

namespace TexLint

/-! ### Cuts -/

/-- The text that has been cut into the given stretches. -/
def joinedText (cuts : List Cut) (last : Text) : Text :=
  cuts.flatMap (fun cut => cut.before ++ cut.separator) ++ last

theorem joinedText_cons (cut : Cut) (cuts : List Cut) (last : Text) :
    joinedText (cut :: cuts) last = cut.before ++ cut.separator ++ joinedText cuts last := by
  simp [joinedText]

section Cuts

variable {sep : Separator}

theorem joinedText_cutsFrom (before : Text) (skip : Nat) (text : Text) :
    joinedText (sep.cutsFrom before skip text).1 (sep.cutsFrom before skip text).2 =
      before.reverse ++ text.drop skip := by
  induction text generalizing before skip with
  | nil => simp [Separator.cutsFrom, joinedText]
  | cons c rest ih =>
    cases skip with
    | succ skip => exact ih before skip
    | zero =>
      rw [Separator.cutsFrom]
      split
      · simpa using ih (c :: before) 0
      · next n _ =>
        rw [joinedText_cons, ih [] n]
        simp

/-- The cuts of a text make up the text. -/
theorem joinedText_cuts (text : Text) : joinedText (sep.cuts text).1 (sep.cuts text).2 = text :=
  joinedText_cutsFrom [] 0 text

variable {q : Char → Bool}

theorem filter_separator_cutsFrom (hq : ∀ text : Text, (text.take (sep text)).filter q = [])
    (before : Text) (skip : Nat) (text : Text) :
    ∀ cut ∈ (sep.cutsFrom before skip text).1, cut.separator.filter q = [] := by
  induction text generalizing before skip with
  | nil => simp [Separator.cutsFrom]
  | cons c rest ih =>
    cases skip with
    | succ skip => exact ih before skip
    | zero =>
      rw [Separator.cutsFrom]
      split
      · exact ih _ _
      · next n hn =>
        refine List.forall_mem_cons.mpr ⟨?_, ih _ _⟩
        have htake := hq (c :: rest)
        rw [hn] at htake
        exact htake

/-! ### Pieces -/

/-- Separators that are left out hold nothing that counts. -/
theorem filter_joinCuts {cuts : List Cut} (hcuts : ∀ cut ∈ cuts, cut.separator.filter q = [])
    (p : Protection) (offset : Nat) (begun last : Text) :
    ((joinCuts p offset begun cuts last).flatMap (·.text)).filter q =
      (begun ++ joinedText cuts last).filter q := by
  induction cuts generalizing p offset begun with
  | nil => simp [joinCuts, joinedText]
  | cons cut cuts ih =>
    obtain ⟨hcut, hcuts⟩ := List.forall_mem_cons.mp hcuts
    rw [joinCuts, joinedText_cons]
    split
    · rw [ih hcuts]
      simp
    · rw [List.flatMap_cons, List.filter_append, ih hcuts]
      simp [hcut]

/-- What no separator takes is in the pieces. -/
theorem filter_split (hq : ∀ text : Text, (text.take (sep text)).filter q = []) (text : Text) :
    ((split sep text).flatMap (·.text)).filter q = text.filter q := by
  rw [split]
  split
  · next hempty => simp [List.isEmpty_iff.mp hempty]
  · have hcuts : ∀ cut ∈ (sep.cuts text).1, cut.separator.filter q = [] :=
      filter_separator_cutsFrom hq [] 0 text
    show ((joinCuts .start 0 [] (sep.cuts text).1 (sep.cuts text).2).flatMap _).filter q = _
    rw [filter_joinCuts hcuts, List.nil_append, joinedText_cuts]

end Cuts

/-! ### Names and options -/

/-- The separator between values is a comma with the blanks around it. -/
theorem exists_of_parameter {text : Text} {n : Nat} (h : Separator.parameter text = n + 1) :
    ∃ blanks blanks' rest, text = blanks ++ ',' :: blanks' ++ rest ∧
      (∀ c ∈ blanks, isWhitespace c = true) ∧ (∀ c ∈ blanks', isWhitespace c = true) ∧
        n = blanks.length + blanks'.length := by
  rw [Separator.parameter, Separator.padded] at h
  split at h
  · cases h
  · next d rest hdrop =>
    split at h
    · next hd =>
      subst hd
      refine ⟨text.takeWhile isWhitespace, rest.takeWhile isWhitespace,
        rest.dropWhile isWhitespace, ?_, fun c => List.mem_takeWhile_imp,
        fun c => List.mem_takeWhile_imp, by omega⟩
      rw [List.append_assoc, List.cons_append, List.takeWhile_append_dropWhile, ← hdrop,
        List.takeWhile_append_dropWhile]
    · cases h

section Filter

variable {q : Char → Bool}

theorem filter_dropWhile {p : Char → Bool} (hp : ∀ c, p c = true → q c = false) (text : Text) :
    (text.dropWhile p).filter q = text.filter q := by
  induction text with
  | nil => rfl
  | cons c text ih =>
    rw [List.dropWhile_cons]
    split
    · next hc => rw [ih, List.filter_cons_of_neg (by simp [hp c hc])]
    · rfl

variable (hspace : ∀ c, isWhitespace c = true → q c = false)
include hspace

/-- Trimming takes off whitespace only. -/
theorem filter_trim (text : Text) : (trim text).filter q = text.filter q := by
  rw [trim, trimEnd, dropEndWhile, List.filter_reverse, filter_dropWhile hspace,
    List.filter_reverse, List.reverse_reverse, trimStart, filter_dropWhile hspace]

theorem filter_blanks {blanks : Text} (h : ∀ c ∈ blanks, isWhitespace c = true) :
    blanks.filter q = [] :=
  List.filter_eq_nil_iff.mpr fun c hc => by simp [hspace c (h c hc)]

/-- The separator between values takes a comma and whitespace. -/
theorem filter_take_parameter (hcomma : q ',' = false) (text : Text) :
    (text.take (Separator.parameter text)).filter q = [] := by
  cases hsep : Separator.parameter text with
  | zero => rfl
  | succ n =>
    obtain ⟨blanks, blanks', rest, rfl, hblanks, hblanks', rfl⟩ := exists_of_parameter hsep
    have hlength : blanks.length + blanks'.length + 1 = (blanks ++ ',' :: blanks').length := by
      rw [List.length_append, List.length_cons]
      omega
    rw [hlength, List.take_left, List.filter_append, List.filter_cons_of_neg (by simp [hcomma]),
      filter_blanks hspace hblanks, filter_blanks hspace hblanks']
    rfl

end Filter

/-- The names of packages in a text: the values between its commas. -/
def namesIn (text : Text) : List String :=
  (split .parameter text).filterMap fun piece =>
    let name := trim piece.text
    if name.isEmpty then none else some (String.ofList name)

theorem packageNames_eq (group : Parameter) : packageNames group = namesIn group.interior := rfl

/-- The options in the bracket groups among some parameters, with repeats. -/
def optionPairs (parameters : List Parameter) : List (String × String) :=
  (splitOnChar ',' (joinedOptions parameters)).map optionOfPiece

section Kept

variable {q : Char → Bool} (hspace : ∀ c, isWhitespace c = true → q c = false)
  (hcomma : q ',' = false)
include hspace hcomma

/-- What is neither whitespace nor a comma is in the names. -/
theorem filter_namesIn (text : Text) :
    ((namesIn text).flatMap String.toList).filter q = text.filter q := by
  have hpiece (piece : Piece) : (if (trim piece.text).isEmpty then none
      else some (String.ofList (trim piece.text))).toList.flatMap String.toList =
        trim piece.text := by
    split
    · next hempty => simp [List.isEmpty_iff.mp hempty]
    · simp
  rw [namesIn, List.filterMap_eq_flatMap_toList, List.flatMap_assoc]
  simp only [hpiece]
  rw [← filter_split (filter_take_parameter hspace hcomma) text, List.filter_flatMap,
    List.filter_flatMap]
  simp only [filter_trim hspace]

omit hspace in
theorem filter_flatten_splitOnChar (text : Text) :
    (splitOnChar ',' text).flatten.filter q = text.filter q := by
  induction text with
  | nil => rfl
  | cons c text ih =>
    rw [splitOnChar]
    split
    · next hc =>
      subst hc
      rw [List.filter_cons_of_neg (by simp [hcomma])]
      exact ih
    · rw [List.filter_cons, ← ih]
      split <;> simp [*, List.filter_cons]

/-- What is neither whitespace nor a comma nor an equals sign is in the options. -/
theorem filter_optionPairs (hequals : q '=' = false) (parameters : List Parameter) :
    ((optionPairs parameters).flatMap fun e => e.1.toList ++ e.2.toList).filter q =
      (joinedOptions parameters).filter q := by
  have hpiece (piece : Text) : ((optionOfPiece piece).1.toList ++
      (optionOfPiece piece).2.toList).filter q = piece.filter q := by
    rw [optionOfPiece, String.toList_ofList, String.toList_ofList, List.filter_append,
      filter_trim hspace, filter_trim hspace]
    conv_rhs => rw [← List.takeWhile_append_dropWhile (p := (· != '=')) (l := piece),
      List.filter_append]
    congr 1
    cases hdrop : piece.dropWhile (· != '=') with
    | nil => rfl
    | cons c rest =>
      have hne : piece.dropWhile (· != '=') ≠ [] := by simp [hdrop]
      obtain rfl : c = '=' := by simpa [hdrop] using List.head_dropWhile_not (· != '=') hne
      simp [hequals]
  rw [optionPairs, List.flatMap_map, List.filter_flatMap]
  simp only [hpiece]
  rw [← filter_flatten_splitOnChar hcomma (joinedOptions parameters), List.filter_flatten,
    List.flatMap_def]

end Kept

/-! ### Counting a character -/

theorem count_eq_of_filter_eq {c : Char} {a b : Text}
    (h : a.filter (· == c) = b.filter (· == c)) : a.count c = b.count c := by
  rw [List.count_eq_countP, List.count_eq_countP, List.countP_eq_length_filter,
    List.countP_eq_length_filter, h]

/-- A separator adds nothing but itself. -/
theorem count_intersperse {c d : Char} (hne : c ≠ d) : (texts : List Text) →
    (texts.intersperse [d]).flatten.count c = texts.flatten.count c
  | [] => rfl
  | [text] => rfl
  | text :: next :: texts => by
    rw [List.intersperse_cons_cons, List.flatten_cons, List.flatten_cons, List.flatten_cons,
      List.count_append, List.count_append, List.count_append,
      count_intersperse hne (next :: texts), List.count_singleton,
      if_neg (by simpa using Ne.symm hne), Nat.zero_add]

theorem count_flatMap_le {α : Type} {c : Char} {f g : α → Text} {l : List α}
    (h : ∀ a ∈ l, (f a).count c ≤ (g a).count c) :
    (l.flatMap f).count c ≤ (l.flatMap g).count c := by
  induction l with
  | nil => exact Nat.le_refl _
  | cons a l ih =>
    obtain ⟨ha, hl⟩ := List.forall_mem_cons.mp h
    rw [List.flatMap_cons, List.flatMap_cons, List.count_append, List.count_append]
    exact Nat.add_le_add ha (ih hl)

theorem beq_eq_false_of_isWhitespace {c d : Char} (hc : isWhitespace c = false)
    (hd : isWhitespace d = true) : (d == c) = false := by
  refine beq_eq_false_iff_ne.mpr ?_
  rintro rfl
  rw [hd] at hc
  cases hc

theorem count_namesIn {c : Char} (hspace : isWhitespace c = false) (hcomma : c ≠ ',')
    (text : Text) : ((namesIn text).flatMap String.toList).count c = text.count c := by
  refine count_eq_of_filter_eq (filter_namesIn ?_ ?_ text)
  · exact fun d => beq_eq_false_of_isWhitespace hspace
  · exact beq_eq_false_iff_ne.mpr (Ne.symm hcomma)

theorem count_optionPairs {c : Char} (hspace : isWhitespace c = false) (hcomma : c ≠ ',')
    (hequals : c ≠ '=') (parameters : List Parameter) :
    ((optionPairs parameters).flatMap fun e => e.1.toList ++ e.2.toList).count c =
      (joinedOptions parameters).count c := by
  refine count_eq_of_filter_eq (filter_optionPairs ?_ ?_ ?_ parameters)
  · exact fun d => beq_eq_false_of_isWhitespace hspace
  · exact beq_eq_false_iff_ne.mpr (Ne.symm hcomma)
  · exact beq_eq_false_iff_ne.mpr (Ne.symm hequals)

end TexLint
