import TexLint.Knowledge.Package
import TexLint.Source.Token
import TexLint.Text.Split
import Mathlib.Data.List.Basic

/-!
# Plain words

Names of packages are mostly plain: letters, digits and hyphens. Such a word has no meaning to
the readers of a source: it is one token, one value of a parameter, and nothing is trimmed off.

## The model

* `IsPlain` says that a string is a plain word, `Package.Plain` that the name and the options
  of a package are.

## What is proved

* `split_parameter`: a text without separators, braces and backslashes is one piece.
* `stripGroup_braces`: such a text in braces is the interior of the group.
* `trim_eq_self`: nothing is trimmed off a text without whitespace.
-/

namespace TexLint

/-- An ASCII letter, an ASCII digit or a hyphen. -/
def isPlainChar (c : Char) : Bool := c.isAlphanum || c == '-'

/-- A word of plain characters, at least one. -/
structure IsPlain (word : String) : Prop where
  /-- The word is not empty. -/
  ne_empty : word ≠ ""
  /-- Its characters are plain. -/
  plain : ∀ c ∈ word.toList, isPlainChar c = true

instance (word : String) : Decidable (IsPlain word) :=
  decidable_of_iff (word.toList.isEmpty = false ∧ word.toList.all isPlainChar = true)
    ⟨fun h => ⟨by simpa using h.1, List.all_eq_true.mp h.2⟩,
      fun h => ⟨by simpa using h.ne_empty, List.all_eq_true.mpr h.plain⟩⟩

/-- A package whose name and options are plain words. -/
structure Package.Plain (p : Package) : Prop where
  /-- The name is plain. -/
  name : IsPlain p.name
  /-- The options are. -/
  options : ∀ word ∈ p.options, IsPlain word

instance (p : Package) : Decidable p.Plain :=
  decidable_of_iff (IsPlain p.name ∧ ∀ word ∈ p.options, IsPlain word)
    ⟨fun h => ⟨h.1, h.2⟩, fun h => ⟨h.name, h.options⟩⟩

/-! ### Plain characters -/

theorem toNat_of_isPlainChar {c : Char} (h : isPlainChar c = true) :
    c.toNat = 45 ∨ (48 ≤ c.toNat ∧ c.toNat ≤ 57) ∨ (65 ≤ c.toNat ∧ c.toNat ≤ 90) ∨
      (97 ≤ c.toNat ∧ c.toNat ≤ 122) := by
  change (((decide (65 ≤ c.val ∧ c.val ≤ 90) || (decide (97 ≤ c.val) && decide (c.val ≤ 122))) ||
    (decide (48 ≤ c.val) && decide (c.val ≤ 57))) || c == '-') = true at h
  simp only [Bool.or_eq_true, Bool.and_eq_true, decide_eq_true_eq, beq_iff_eq,
    UInt32.le_iff_toNat_le] at h
  rcases h with ((h | h) | h) | rfl
  · exact .inr (.inr (.inl h))
  · exact .inr (.inr (.inr h))
  · exact .inr (.inl h)
  · exact .inl rfl

theorem isWhitespace_of_isPlainChar {c : Char} (h : isPlainChar c = true) :
    isWhitespace c = false := by
  have hn := toNat_of_isPlainChar h
  simp only [isWhitespace, Bool.or_eq_false_iff, Bool.and_eq_false_iff, decide_eq_false_iff_not,
    beq_eq_false_iff_ne, ne_eq]
  omega

theorem ne_of_isPlainChar {c d : Char} (h : isPlainChar c = true) (hd : isPlainChar d = false) :
    c ≠ d := by
  rintro rfl
  rw [h] at hd
  cases hd

theorem isTextChar_of_isPlainChar {c : Char} (h : isPlainChar c = true) :
    isTextChar c = true := by
  have hne (d : Char) (hd : isPlainChar d = false) : (c == d) = false :=
    beq_eq_false_iff_ne.mpr (ne_of_isPlainChar h hd)
  simp [isTextChar, isWhitespace_of_isPlainChar h, hne '\\' (by decide), hne '\x7b' (by decide),
    hne '\x7d' (by decide), hne '[' (by decide), hne ']' (by decide), hne '%' (by decide),
    hne '$' (by decide)]

/-! ### Texts that nothing in them divides -/

theorem trimStart_eq_self {text : Text} (h : ∀ c ∈ text, isWhitespace c = false) :
    trimStart text = text := by
  cases text with
  | nil => rfl
  | cons c text => rw [trimStart, List.dropWhile_cons_of_neg (by simp [h c List.mem_cons_self])]

/-- Nothing is trimmed off a text without whitespace. -/
theorem trim_eq_self {text : Text} (h : ∀ c ∈ text, isWhitespace c = false) :
    trim text = text := by
  have hreverse : trimStart text.reverse = text.reverse := trimStart_eq_self (by simpa using h)
  rw [trim, trimStart_eq_self h, trimEnd, dropEndWhile]
  exact (congrArg List.reverse hreverse).trans text.reverse_reverse

/-- A brace group whose interior has no braces and no backslashes ends with it. -/
theorem endsBraceGroup_append {text : Text} (h : ∀ c ∈ text, isTextChar c = true) :
    endsBraceGroup 0 (text ++ ['}']) = true := by
  induction text with
  | nil => rfl
  | cons c text ih =>
    have hc := h c List.mem_cons_self
    have hne (d : Char) (hd : isTextChar d = false) : c ≠ d := by
      rintro rfl
      rw [hc] at hd
      cases hd
    rw [List.cons_append, endsBraceGroup.eq_def]
    simp only [hne '\\' (by decide), hne '\x7b' (by decide), hne '\x7d' (by decide), if_false]
    exact ih fun d hd => h d (List.mem_cons_of_mem _ hd)

/-- The interior of a brace group is the text in the braces. -/
theorem stripGroup_braces {text : Text} (h : ∀ c ∈ text, isTextChar c = true) :
    stripGroup ('{' :: (text ++ ['}'])) = text := by
  rw [stripGroup]
  simp [endsBraceGroup_append h]

/-- A text without whitespace and commas holds one value. -/
theorem split_parameter {text : Text} (hne : text ≠ [])
    (hspace : ∀ c ∈ text, isWhitespace c = false) (hcomma : ',' ∉ text) :
    split .parameter text = [⟨0, text⟩] := by
  have hnone (before rest : Text) (hrest : ∀ c ∈ rest, isWhitespace c = false)
      (hcomma : ',' ∉ rest) :
      Separator.parameter.cutsFrom before 0 rest = ([], before.reverse ++ rest) := by
    induction rest generalizing before with
    | nil => simp [Separator.cutsFrom]
    | cons c rest ih =>
      have hc : Separator.parameter (c :: rest) = 0 := by
        have hne : c ≠ ',' := by
          rintro rfl
          exact hcomma List.mem_cons_self
        rw [Separator.parameter, Separator.padded,
          List.dropWhile_cons_of_neg (by simp [hrest c List.mem_cons_self])]
        exact if_neg hne
      rw [Separator.cutsFrom, hc]
      simpa using ih (c :: before) (fun d hd => hrest d (List.mem_cons_of_mem _ hd))
        fun hmem => hcomma (List.mem_cons_of_mem _ hmem)
  rw [split, if_neg (by simpa using hne)]
  simp [Separator.cuts, hnone [] text hspace hcomma, joinCuts]

/-! ### Plain words -/

namespace IsPlain

variable {word : String}

theorem toList_ne_nil (h : IsPlain word) : word.toList ≠ [] := by
  simpa using h.ne_empty

theorem isTextChar (h : IsPlain word) : ∀ c ∈ word.toList, isTextChar c = true :=
  fun c hc => isTextChar_of_isPlainChar (h.plain c hc)

theorem isWhitespace (h : IsPlain word) : ∀ c ∈ word.toList, isWhitespace c = false :=
  fun c hc => isWhitespace_of_isPlainChar (h.plain c hc)

theorem not_mem (h : IsPlain word) {d : Char} (hd : isPlainChar d = false) : d ∉ word.toList :=
  fun hmem => ne_of_isPlainChar (h.plain d hmem) hd rfl

end IsPlain

end TexLint
