import TexLint.Json.Printer
import TexLint.Json.Reader

/-!
# What is written is read back

The reader of JSON texts gives back every value that is written, in whatever layout.

## The model

* `Lexing.run` reads a text to its end from any state of the first pass, so that what is said
  of a part of a text can be put together.
* `Json.lexemes` are the tokens that the parts of a value are written with.
* `WellFormed` is a value whose numbers are written as numbers.

## What is proved

* `decodePoints_toNat`: the characters of a text come back from their code points.
* `run_written`: the tokens of a value that is written are `Json.lexemes`, whatever was read
  before; behind it there must be something that does not go on with its last word.
* `foldlM_next_lexemes`: out of these tokens the value is built again.
* `read?_write`: both passes together.
-/

namespace TexLint

namespace Json

/-! ### Reading a text in parts -/

namespace Lexing

/-- The tokens at the end of a text. -/
def finish? (l : Lexing) : Option (List Lexeme) :=
  match l.current with
  | .none => some l.done.reverse
  | .word taken => (wordValue? taken.reverse).map fun value => (.scalar value :: l.done).reverse
  | .string _ | .escape _ | .hex _ _ _ => none

/-- The tokens of a text whose first part has been read. -/
def run (l : Lexing) (text : List Char) : Option (List Lexeme) :=
  (text.foldlM next l).bind finish?

theorem run_cons (l : Lexing) (c : Char) (text : List Char) :
    l.run (c :: text) = (l.next c).bind (·.run text) := by
  simp only [run, List.foldlM_cons]
  cases l.next c <;> rfl

theorem run_cons_of_next {l l' : Lexing} {c : Char} (h : l.next c = some l')
    (text : List Char) : l.run (c :: text) = l'.run text := by
  rw [run_cons, h, Option.bind_some]

end Lexing

theorem lexemes?_eq_run (text : List Char) : lexemes? text = Lexing.run ⟨[], .none⟩ text := by
  unfold lexemes? Lexing.run
  refine congrArg _ (funext fun l => ?_)
  obtain ⟨done, current⟩ := l
  cases current with
  | word taken =>
    simp only [Lexing.finish?]
    cases wordValue? taken.reverse <;> rfl
  | none | string | escape | hex => rfl

/-- What may stand behind a word without going on with it. -/
def EndsWord (text : List Char) : Prop := ∀ c ∈ text.head?, Lexing.isWordChar c = false

theorem endsWord_nil : EndsWord [] := by simp [EndsWord]

theorem endsWord_cons {c : Char} (h : Lexing.isWordChar c = false) (text : List Char) :
    EndsWord (c :: text) := by
  simpa [EndsWord] using h

theorem cases_of_isBlank {c : Char} (h : isBlank c = true) :
    c = ' ' ∨ c = '\n' ∨ c = '\t' ∨ c = '\r' := by
  simpa [isBlank, or_assoc] using h

theorem endsWord_blanks {blanks : List Char} (h : ∀ c ∈ blanks, isBlank c = true)
    {rest : List Char} (hrest : EndsWord rest) : EndsWord (blanks ++ rest) := by
  cases blanks with
  | nil => exact hrest
  | cons c blanks =>
    refine endsWord_cons ?_ _
    rcases cases_of_isBlank (h c List.mem_cons_self) with rfl | rfl | rfl | rfl <;> decide

variable {done : List Lexeme} {rest : List Char}

/-- Blanks between tokens mean nothing. -/
theorem run_blanks {blanks : List Char} (h : ∀ c ∈ blanks, isBlank c = true) :
    Lexing.run ⟨done, .none⟩ (blanks ++ rest) = Lexing.run ⟨done, .none⟩ rest := by
  induction blanks with
  | nil => rfl
  | cons c blanks ih =>
    have hc := cases_of_isBlank (h c List.mem_cons_self)
    have hnext : Lexing.next ⟨done, .none⟩ c = some ⟨done, .none⟩ := if_pos hc
    rw [List.cons_append, Lexing.run_cons_of_next hnext]
    exact ih fun c hc => h c (List.mem_cons_of_mem _ hc)

/-! ### Words -/

theorem run_word_append {word taken : List Char}
    (h : ∀ c ∈ word, Lexing.isWordChar c = true) :
    Lexing.run ⟨done, .word taken⟩ (word ++ rest) =
      Lexing.run ⟨done, .word (word.reverse ++ taken)⟩ rest := by
  induction word generalizing taken with
  | nil => rfl
  | cons c word ih =>
    have hnext : Lexing.next ⟨done, .word taken⟩ c = some ⟨done, .word (c :: taken)⟩ :=
      if_pos (h c List.mem_cons_self)
    rw [List.cons_append, Lexing.run_cons_of_next hnext,
      ih fun c hc => h c (List.mem_cons_of_mem _ hc)]
    simp

/-- A character of a word starts a word where a token may start. -/
theorem startToken_of_isWordChar {c : Char} (h : Lexing.isWordChar c = true) :
    Lexing.startToken done c = some ⟨done, .word [c]⟩ := by
  have hne {d : Char} (hd : Lexing.isWordChar d = false) : c ≠ d := by
    rintro rfl
    rw [h] at hd
    cases hd
  rw [Lexing.startToken, if_neg, if_neg (hne (by decide)), if_neg (hne (by decide)),
    if_neg (hne (by decide)), if_neg (hne (by decide)), if_neg (hne (by decide)),
    if_neg (hne (by decide)), if_neg (hne (by decide)), if_pos h]
  rintro (h | h | h | h) <;> exact hne (by decide) h

/-- A word that has a value makes one token, if what stands behind it ends it. -/
theorem run_word (word : List Char) {value : Json} (hne : word ≠ [])
    (h : ∀ c ∈ word, Lexing.isWordChar c = true) (hvalue : wordValue? word = some value)
    (hrest : EndsWord rest) :
    Lexing.run ⟨done, .none⟩ (word ++ rest) = Lexing.run ⟨.scalar value :: done, .none⟩ rest := by
  have hend : Lexing.run ⟨done, .word word.reverse⟩ rest =
      Lexing.run ⟨.scalar value :: done, .none⟩ rest := by
    cases rest with
    | nil => simp [Lexing.run, Lexing.finish?, hvalue]
    | cons c rest =>
      have hc : Lexing.isWordChar c = false := hrest c rfl
      simp [Lexing.run_cons, Lexing.next, hc, hvalue]
  obtain ⟨c, word', rfl⟩ := List.exists_cons_of_ne_nil hne
  have hstart : Lexing.next ⟨done, .none⟩ c = some ⟨done, .word [c]⟩ :=
    startToken_of_isWordChar (h c List.mem_cons_self)
  rw [List.cons_append, Lexing.run_cons_of_next hstart,
    run_word_append fun c hc => h c (List.mem_cons_of_mem _ hc), ← hend, List.reverse_cons]

theorem isWordChar_of_isDigit {c : Char} (h : c.isDigit = true) :
    Lexing.isWordChar c = true := by
  simp [Lexing.isWordChar, Char.isAlphanum, h]

theorem isWordChar_of_isDigits {text : List Char} (h : isDigits text = true) :
    ∀ c ∈ text, Lexing.isWordChar c = true := by
  intro c hc
  simp only [isDigits, Bool.and_eq_true, List.all_eq_true] at h
  exact isWordChar_of_isDigit (h.2 c hc)

/-- What stands behind digits consists of characters of words if that is so behind them. -/
theorem isWordChar_of_dropWhile {text : List Char}
    (h : ∀ c ∈ text.dropWhile Char.isDigit, Lexing.isWordChar c = true) :
    ∀ c ∈ text, Lexing.isWordChar c = true := by
  intro c hc
  rw [← @List.takeWhile_append_dropWhile _ Char.isDigit text, List.mem_append] at hc
  rcases hc with hc | hc
  · exact isWordChar_of_isDigit (List.all_eq_true.mp List.all_takeWhile c hc)
  · exact h c hc

theorem isWordChar_of_isExponent {text : List Char} (h : isExponent text = true) :
    ∀ c ∈ text, Lexing.isWordChar c = true := by
  unfold isExponent at h
  split at h
  · simp
  · next e sign digits =>
    simp only [Bool.and_eq_true, Bool.or_eq_true, beq_iff_eq] at h
    obtain ⟨he, hdigits⟩ := h
    have hletter : Lexing.isWordChar e = true := by
      rcases he with rfl | rfl <;> decide
    split at hdigits
    · next hsign =>
      have hsign : Lexing.isWordChar sign = true := by
        rcases hsign with rfl | rfl <;> decide
      simpa [hletter, hsign] using isWordChar_of_isDigits hdigits
    · simpa [hletter] using isWordChar_of_isDigits hdigits
  · cases h

theorem isWordChar_of_isNumberTail {text : List Char} (h : isNumberTail text = true) :
    ∀ c ∈ text, Lexing.isWordChar c = true := by
  unfold isNumberTail at h
  split at h
  · next rest =>
    have hpoint : Lexing.isWordChar '.' = true := by decide
    have hexponent := isWordChar_of_isExponent (Bool.and_eq_true_iff.mp h).2
    simpa [hpoint] using isWordChar_of_dropWhile hexponent
  · exact isWordChar_of_isExponent h

theorem isWordChar_of_isUnsigned {text : List Char} (h : isUnsigned text = true) :
    ∀ c ∈ text, Lexing.isWordChar c = true := by
  unfold isUnsigned at h
  split at h
  · next rest =>
    have hzero : Lexing.isWordChar '0' = true := by decide
    simpa [hzero] using isWordChar_of_isNumberTail h
  · next c rest _ =>
    obtain ⟨hdigit, htail⟩ := Bool.and_eq_true_iff.mp h
    intro d hd
    rcases List.mem_cons.mp hd with rfl | hd
    · exact isWordChar_of_isDigit hdigit
    · exact isWordChar_of_dropWhile (isWordChar_of_isNumberTail htail) d hd
  · cases h

theorem isWordChar_of_isNumber {text : List Char} (h : isNumber text = true) :
    ∀ c ∈ text, Lexing.isWordChar c = true := by
  unfold isNumber at h
  split at h
  · next rest =>
    have hminus : Lexing.isWordChar '-' = true := by decide
    simpa [hminus] using isWordChar_of_isUnsigned h
  · exact isWordChar_of_isUnsigned h

/-- A number is read as itself. -/
theorem wordValue?_number {text : List Char} (h : isNumber text = true) :
    wordValue? text = some (.number (String.ofList text)) := by
  have hne {word : List Char} (hword : isNumber word = false) : text ≠ word := by
    rintro rfl
    rw [h] at hword
    cases hword
  rw [wordValue?, if_neg (hne (by decide)), if_neg (hne (by decide)), if_neg (hne (by decide)),
    if_pos h]

/-! ### Strings -/

/-- The characters of a text come back from their code points: none is half a surrogate
pair. -/
theorem decodePoints_toNat (text : List Char) : decodePoints (text.map Char.toNat) = some text := by
  have hhalf (c : Char) : (isHighHalf c.toNat || isLowHalf c.toNat) = false := by
    have hvalid : c.toNat < 0xD800 ∨ 0xDFFF < c.toNat ∧ c.toNat < 0x110000 := c.valid
    simp only [isHighHalf, isLowHalf, Bool.or_eq_false_iff, Bool.and_eq_false_iff,
      decide_eq_false_iff_not]
    omega
  induction text with
  | nil => rfl
  | cons c text ih =>
    have hhigh : isHighHalf c.toNat = false := (Bool.or_eq_false_iff.mp (hhalf c)).1
    cases text with
    | nil =>
      simp only [List.map_cons, List.map_nil, decodePoints, hhalf, Bool.false_eq_true, if_false,
        Char.ofNat_toNat]
    | cons d text =>
      simp only [List.map_cons] at ih ⊢
      rw [decodePoints, hhigh, Bool.false_and, if_neg Bool.false_ne_true, ← hhigh, hhalf,
        if_neg Bool.false_ne_true, ih, Option.map_some, Char.ofNat_toNat]

theorem hexDigit?_hexChar {n : Nat} (h : n < 16) : hexDigit? (hexChar n) = some n := by
  have hall : ∀ n < 16, hexDigit? (hexChar n) = some n := by decide
  exact hall n h

theorem run_hex {points : List Nat} {missing value n : Nat} (hn : n < 16) (text : List Char) :
    Lexing.run ⟨done, .hex points (missing + 2) value⟩ (hexChar n :: text) =
      Lexing.run ⟨done, .hex points (missing + 1) (value * 16 + n)⟩ text := by
  refine Lexing.run_cons_of_next ?_ text
  simp [Lexing.next, hexDigit?_hexChar hn]

theorem run_hex_last {points : List Nat} {value n : Nat} (hn : n < 16) (text : List Char) :
    Lexing.run ⟨done, .hex points 1 value⟩ (hexChar n :: text) =
      Lexing.run ⟨done, .string ((value * 16 + n) :: points)⟩ text := by
  refine Lexing.run_cons_of_next ?_ text
  simp [Lexing.next, hexDigit?_hexChar hn]

/-- A character is written as a one-letter escape, by its number, or as it is. -/
theorem writtenChar_cases (c : Char) :
    (∃ d, writtenChar c = ['\\', d] ∧ escaped? d = some c ∧ d ≠ 'u') ∨
    (c.toNat < 0x20 ∧ writtenChar c =
      ['\\', 'u', hexChar 0, hexChar 0, hexChar (c.toNat / 16), hexChar (c.toNat % 16)]) ∨
    (c ≠ '"' ∧ c ≠ '\\' ∧ ¬ c.toNat < 0x20 ∧ writtenChar c = [c]) := by
  by_cases hletter : c ∈ ['"', '\\', '\x08', '\x0c', '\n', '\r', '\t']
  · left
    simp only [List.mem_cons, List.not_mem_nil, or_false] at hletter
    rcases hletter with rfl | rfl | rfl | rfl | rfl | rfl | rfl <;>
      exact ⟨_, rfl, rfl, by decide⟩
  · right
    simp only [List.mem_cons, List.not_mem_nil, or_false, not_or] at hletter
    obtain ⟨hquote, hbackslash, hb, hf, hn, hr, ht⟩ := hletter
    rw [writtenChar, if_neg hquote, if_neg hbackslash, if_neg hb, if_neg hf, if_neg hn, if_neg hr,
      if_neg ht]
    by_cases hcontrol : c.toNat < 0x20
    · exact .inl ⟨hcontrol, if_pos hcontrol⟩
    · exact .inr ⟨hquote, hbackslash, hcontrol, if_neg hcontrol⟩

/-- Within a string, what a character is written as is read as its code point. -/
theorem run_writtenChar (c : Char) (points : List Nat) :
    Lexing.run ⟨done, .string points⟩ (writtenChar c ++ rest) =
      Lexing.run ⟨done, .string (c.toNat :: points)⟩ rest := by
  have hbackslash (text : List Char) : Lexing.run ⟨done, .string points⟩ ('\\' :: text) =
      Lexing.run ⟨done, .escape points⟩ text := Lexing.run_cons_of_next rfl text
  rcases writtenChar_cases c with ⟨d, hc, hd, hu⟩ | ⟨hcontrol, hc⟩ | ⟨hquote, hne, hcontrol, hc⟩
  · have hnext : Lexing.next ⟨done, .escape points⟩ d =
        some ⟨done, .string (c.toNat :: points)⟩ := by
      simp [Lexing.next, hu, hd]
    rw [hc, List.cons_append, hbackslash, List.cons_append, Lexing.run_cons_of_next hnext,
      List.nil_append]
  · have hnext : Lexing.next ⟨done, .escape points⟩ 'u' = some ⟨done, .hex points 4 0⟩ := rfl
    have hcode : (((0 * 16 + 0) * 16 + 0) * 16 + c.toNat / 16) * 16 + c.toNat % 16 = c.toNat := by
      omega
    simp only [hc, List.cons_append, List.nil_append]
    rw [hbackslash, Lexing.run_cons_of_next hnext, run_hex (by omega), run_hex (by omega),
      run_hex (by omega), run_hex_last (by omega), hcode]
  · have hnext : Lexing.next ⟨done, .string points⟩ c =
        some ⟨done, .string (c.toNat :: points)⟩ := by
      simp [Lexing.next, hquote, hne, hcontrol]
    rw [hc, List.cons_append, Lexing.run_cons_of_next hnext, List.nil_append]

/-- A string that is written is read as itself. -/
theorem run_writtenString (value : JsonString) :
    Lexing.run ⟨done, .none⟩ (writtenString value ++ rest) =
      Lexing.run ⟨.scalar (.string value) :: done, .none⟩ rest := by
  have hstart : Lexing.next ⟨done, .none⟩ '"' = some ⟨done, .string []⟩ := rfl
  have hend (points : List Nat) : Lexing.next ⟨done, .string points⟩ '"' =
      some ⟨.scalar (.string ((decodePoints points.reverse).map String.ofList)) :: done, .none⟩ :=
    rfl
  cases value with
  | none => rfl
  | some s =>
    have hchars (text : List Char) (points : List Nat) :
        Lexing.run ⟨done, .string points⟩ (text.flatMap writtenChar ++ '"' :: rest) =
          Lexing.run ⟨done, .string ((text.map Char.toNat).reverse ++ points)⟩ ('"' :: rest) := by
      induction text generalizing points with
      | nil => simp only [List.flatMap_nil, List.nil_append, List.map_nil, List.reverse_nil]
      | cons c text ih =>
        rw [List.flatMap_cons, List.append_assoc, run_writtenChar, ih, List.map_cons,
          List.reverse_cons, List.append_assoc, List.singleton_append]
    have hwritten : writtenString (some s) = '"' :: s.toList.flatMap writtenChar ++ ['"'] := rfl
    rw [hwritten, List.append_assoc, List.cons_append, Lexing.run_cons_of_next hstart,
      List.singleton_append, hchars, List.append_nil, Lexing.run_cons_of_next (hend _),
      List.reverse_reverse, decodePoints_toNat, Option.map_some, String.ofList_toList]

/-! ### Values -/

/-- The numbers in a value are written as numbers. -/
inductive WellFormed : Json → Prop where
  /-- The value without content. -/
  | null : WellFormed .null
  /-- A truth value. -/
  | bool (value : Bool) : WellFormed (.bool value)
  /-- A number. -/
  | number {lexeme : String} (h : isNumber lexeme.toList = true) : WellFormed (.number lexeme)
  /-- A string. -/
  | string (value : JsonString) : WellFormed (.string value)
  /-- A sequence of values. -/
  | array {items : List Json} (h : ∀ item ∈ items, WellFormed item) : WellFormed (.array items)
  /-- Named values. -/
  | object {fields : List (JsonString × Json)} (h : ∀ field ∈ fields, WellFormed field.2) :
      WellFormed (.object fields)

mutual

/-- The tokens that a value is written with. -/
def lexemes : Json → List Lexeme
  | null => [.scalar .null]
  | bool value => [.scalar (.bool value)]
  | number lexeme => [.scalar (.number lexeme)]
  | string value => [.scalar (.string value)]
  | array [] => [.lbracket, .rbracket]
  | array (item :: items) => .lbracket :: item.lexemes ++ lexemesOfItems items ++ [.rbracket]
  | object [] => [.lbrace, .rbrace]
  | object ((name, value) :: fields) =>
    .lbrace :: .scalar (.string name) :: .colon :: value.lexemes ++ lexemesOfFields fields ++
      [.rbrace]

/-- The tokens of the items after the first one of an array. -/
def lexemesOfItems : List Json → List Lexeme
  | [] => []
  | item :: items => .comma :: item.lexemes ++ lexemesOfItems items

/-- The tokens of the fields after the first one of an object. -/
def lexemesOfFields : List (JsonString × Json) → List Lexeme
  | [] => []
  | (name, value) :: fields =>
    .comma :: .scalar (.string name) :: .colon :: value.lexemes ++ lexemesOfFields fields

end

section Marks

variable (text : List Char)

@[simp] theorem run_lbracket : Lexing.run ⟨done, .none⟩ ('[' :: text) =
    Lexing.run ⟨.lbracket :: done, .none⟩ text := Lexing.run_cons_of_next rfl text

@[simp] theorem run_rbracket : Lexing.run ⟨done, .none⟩ (']' :: text) =
    Lexing.run ⟨.rbracket :: done, .none⟩ text := Lexing.run_cons_of_next rfl text

@[simp] theorem run_lbrace : Lexing.run ⟨done, .none⟩ ('{' :: text) =
    Lexing.run ⟨.lbrace :: done, .none⟩ text := Lexing.run_cons_of_next rfl text

@[simp] theorem run_rbrace : Lexing.run ⟨done, .none⟩ ('}' :: text) =
    Lexing.run ⟨.rbrace :: done, .none⟩ text := Lexing.run_cons_of_next rfl text

@[simp] theorem run_colon : Lexing.run ⟨done, .none⟩ (':' :: text) =
    Lexing.run ⟨.colon :: done, .none⟩ text := Lexing.run_cons_of_next rfl text

@[simp] theorem run_comma : Lexing.run ⟨done, .none⟩ (',' :: text) =
    Lexing.run ⟨.comma :: done, .none⟩ text := Lexing.run_cons_of_next rfl text

end Marks

/-- A value is written so that it is read as its tokens, whatever was read before. -/
def WritesLexemes (l : Layout) (value : Json) : Prop :=
  ∀ depth done rest, EndsWord rest →
    Lexing.run ⟨done, .none⟩ (value.written l depth ++ rest) =
      Lexing.run ⟨value.lexemes.reverse ++ done, .none⟩ rest

variable {l : Layout} {depth : Nat}

theorem run_newLine : Lexing.run ⟨done, .none⟩ (l.newLine depth ++ rest) =
    Lexing.run ⟨done, .none⟩ rest := run_blanks (l.newLine_blank depth)

theorem endsWord_writtenItems (items : List Json) (hrest : EndsWord rest) :
    EndsWord (writtenItems l depth items ++ rest) := by
  cases items with
  | nil => exact hrest
  | cons item items => exact endsWord_cons (by decide) _

theorem endsWord_writtenFields (fields : List (JsonString × Json)) (hrest : EndsWord rest) :
    EndsWord (writtenFields l depth fields ++ rest) := by
  rcases fields with _ | ⟨⟨name, value⟩, fields⟩
  · exact hrest
  · exact endsWord_cons (by decide) _

theorem run_writtenItems {items : List Json} (h : ∀ item ∈ items, WritesLexemes l item)
    (hrest : EndsWord rest) :
    Lexing.run ⟨done, .none⟩ (writtenItems l depth items ++ rest) =
      Lexing.run ⟨(lexemesOfItems items).reverse ++ done, .none⟩ rest := by
  induction items generalizing done with
  | nil => rfl
  | cons item items ih =>
    have hitem := h item List.mem_cons_self
    have hitems : ∀ item ∈ items, WritesLexemes l item :=
      fun item hmem => h item (List.mem_cons_of_mem _ hmem)
    simp only [writtenItems, List.cons_append, List.append_assoc, run_comma, run_newLine]
    rw [hitem _ _ _ (endsWord_writtenItems items hrest), ih hitems]
    simp [lexemesOfItems]

/-- A field is read as its name, the mark behind it and its value. -/
theorem run_field {name : JsonString} {value : Json} (h : WritesLexemes l value)
    (hrest : EndsWord rest) :
    Lexing.run ⟨done, .none⟩
        (writtenString name ++ (':' :: (l.gap ++ (value.written l depth ++ rest)))) =
      Lexing.run
        ⟨value.lexemes.reverse ++ .colon :: .scalar (.string name) :: done, .none⟩ rest := by
  rw [run_writtenString, run_colon, run_blanks l.gap_blank, h depth _ _ hrest]

theorem run_writtenFields {fields : List (JsonString × Json)}
    (h : ∀ field ∈ fields, WritesLexemes l field.2) (hrest : EndsWord rest) :
    Lexing.run ⟨done, .none⟩ (writtenFields l depth fields ++ rest) =
      Lexing.run ⟨(lexemesOfFields fields).reverse ++ done, .none⟩ rest := by
  induction fields generalizing done with
  | nil => rfl
  | cons field fields ih =>
    obtain ⟨name, value⟩ := field
    have hvalue := h (name, value) List.mem_cons_self
    have hfields : ∀ field ∈ fields, WritesLexemes l field.2 :=
      fun field hmem => h field (List.mem_cons_of_mem _ hmem)
    simp only [writtenFields, List.cons_append, List.append_assoc, run_comma, run_newLine]
    rw [run_field hvalue (endsWord_writtenFields fields hrest), ih hfields]
    simp [lexemesOfFields]

/-- The tokens of a value that is written are its own. -/
theorem WellFormed.writesLexemes {value : Json} (h : value.WellFormed) (l : Layout) :
    WritesLexemes l value := by
  induction h with
  | null =>
    intro depth done rest hrest
    exact run_word "null".toList (by decide) (List.all_eq_true.mp rfl) rfl hrest
  | bool value =>
    intro depth done rest hrest
    cases value with
    | false => exact run_word "false".toList (by decide) (List.all_eq_true.mp rfl) rfl hrest
    | true => exact run_word "true".toList (by decide) (List.all_eq_true.mp rfl) rfl hrest
  | @number lexeme h =>
    intro depth done rest hrest
    have hvalue := wordValue?_number h
    rw [String.ofList_toList] at hvalue
    have hne : lexeme.toList ≠ [] := by
      intro hnil
      rw [hnil] at h
      cases h
    exact run_word _ hne (isWordChar_of_isNumber h) hvalue hrest
  | string value =>
    intro depth done rest _
    exact run_writtenString value
  | @array items _ ih =>
    intro depth done rest _
    cases items with
    | nil => simp [written, lexemes]
    | cons item items =>
      have hend : EndsWord (l.newLine depth ++ ']' :: rest) :=
        endsWord_blanks (l.newLine_blank depth) (endsWord_cons (by decide) rest)
      have hitem := ih item List.mem_cons_self
      have hitems : ∀ item ∈ items, WritesLexemes l item :=
        fun item hmem => ih item (List.mem_cons_of_mem _ hmem)
      simp only [written, List.cons_append, List.append_assoc, List.nil_append, run_lbracket,
        run_newLine]
      rw [hitem _ _ _ (endsWord_writtenItems items hend), run_writtenItems hitems hend,
        run_newLine, run_rbracket]
      simp [lexemes]
  | @object fields _ ih =>
    intro depth done rest _
    rcases fields with _ | ⟨⟨name, value⟩, fields⟩
    · simp [written, lexemes]
    · have hend : EndsWord (l.newLine depth ++ '}' :: rest) :=
        endsWord_blanks (l.newLine_blank depth) (endsWord_cons (by decide) rest)
      have hvalue := ih (name, value) List.mem_cons_self
      have hfields : ∀ field ∈ fields, WritesLexemes l field.2 :=
        fun field hmem => ih field (List.mem_cons_of_mem _ hmem)
      simp only [written, List.cons_append, List.append_assoc, List.nil_append, run_lbrace,
        run_newLine]
      rw [run_field hvalue (endsWord_writtenFields fields hend), run_writtenFields hfields hend,
        run_newLine, run_rbrace]
      simp [lexemes]

/-! ### Building a value out of its tokens -/

/-- Where the first item of an array may stand, a value is built as in an array without
items. -/
theorem foldlM_next_firstItem (value : Json) (outer : List OpenValue) :
    value.lexemes.foldlM Building.next ⟨.firstItem, outer⟩ =
      value.lexemes.foldlM Building.next ⟨.value, .array [] :: outer⟩ := by
  cases value with
  | array items => cases items <;> rfl
  | object fields => rcases fields with _ | ⟨⟨name, value⟩, fields⟩ <;> rfl
  | null | bool | number | string => rfl

/-- The tokens of a value build it where a value may stand. -/
def Builds (value : Json) : Prop :=
  ∀ outer, value.lexemes.foldlM Building.next ⟨.value, outer⟩ =
    some ⟨.afterValue value, outer⟩

theorem foldlM_next_items {items : List Json} (h : ∀ item ∈ items, Builds item)
    (outer : List OpenValue) (before : List Json) (value : Json) :
    (lexemesOfItems items ++ [Lexeme.rbracket]).foldlM Building.next
        ⟨.afterValue value, .array before :: outer⟩ =
      some ⟨.afterValue (.array ((value :: before).reverse ++ items)), outer⟩ := by
  induction items generalizing before value with
  | nil => simp [lexemesOfItems, Building.next]
  | cons item items ih =>
    have hitem := h item List.mem_cons_self
    have hitems := ih (fun item hmem => h item (List.mem_cons_of_mem _ hmem))
      (value :: before) item
    have hcomma : Building.next ⟨.afterValue value, .array before :: outer⟩ .comma =
        some ⟨.value, .array (value :: before) :: outer⟩ := rfl
    rw [lexemesOfItems, List.cons_append, List.cons_append, List.append_assoc, List.foldlM_cons,
      hcomma, Option.bind_eq_bind, Option.bind_some, List.foldlM_append, hitem,
      Option.bind_eq_bind, Option.bind_some, hitems]
    simp

theorem foldlM_next_fields {fields : List (JsonString × Json)}
    (h : ∀ field ∈ fields, Builds field.2) (outer : List OpenValue)
    (before : List (JsonString × Json)) (name : JsonString) (value : Json) :
    (lexemesOfFields fields ++ [Lexeme.rbrace]).foldlM Building.next
        ⟨.afterValue value, .object before name :: outer⟩ =
      some ⟨.afterValue (.object (((name, value) :: before).reverse ++ fields)), outer⟩ := by
  induction fields generalizing before name value with
  | nil => simp [lexemesOfFields, Building.next]
  | cons field fields ih =>
    obtain ⟨name', value'⟩ := field
    have hvalue := h (name', value') List.mem_cons_self
    have hfields := ih (fun field hmem => h field (List.mem_cons_of_mem _ hmem))
      ((name, value) :: before) name' value'
    have hname : [Lexeme.comma, .scalar (.string name'), .colon].foldlM Building.next
        ⟨.afterValue value, .object before name :: outer⟩ =
          some ⟨.value, .object ((name, value) :: before) name' :: outer⟩ := rfl
    have hlexemes : lexemesOfFields ((name', value') :: fields) =
        [Lexeme.comma, .scalar (.string name'), .colon] ++ value'.lexemes ++
          lexemesOfFields fields := rfl
    rw [hlexemes, List.append_assoc, List.append_assoc, List.foldlM_append, hname,
      Option.bind_eq_bind, Option.bind_some, List.foldlM_append, hvalue, Option.bind_eq_bind,
      Option.bind_some, hfields]
    simp

/-- A value is built out of its tokens. -/
theorem WellFormed.builds {value : Json} (h : value.WellFormed) : Builds value := by
  induction h with
  | null | bool | number | string => exact fun _ => rfl
  | @array items _ ih =>
    intro outer
    cases items with
    | nil => rfl
    | cons item items =>
      have hitem := ih item List.mem_cons_self
      have hitems : ∀ item ∈ items, Builds item :=
        fun item hmem => ih item (List.mem_cons_of_mem _ hmem)
      have hstart : Building.next ⟨.value, outer⟩ .lbracket = some ⟨.firstItem, outer⟩ := rfl
      rw [lexemes, List.append_assoc, List.cons_append, List.foldlM_cons, hstart,
        Option.bind_eq_bind, Option.bind_some, List.foldlM_append, foldlM_next_firstItem, hitem,
        Option.bind_eq_bind, Option.bind_some, foldlM_next_items hitems]
      rfl
  | @object fields _ ih =>
    intro outer
    rcases fields with _ | ⟨⟨name, value⟩, fields⟩
    · rfl
    · have hvalue := ih (name, value) List.mem_cons_self
      have hfields : ∀ field ∈ fields, Builds field.2 :=
        fun field hmem => ih field (List.mem_cons_of_mem _ hmem)
      have hname : [Lexeme.lbrace, .scalar (.string name), .colon].foldlM Building.next
          ⟨.value, outer⟩ = some ⟨.value, .object [] name :: outer⟩ := rfl
      have hlexemes : (Json.object ((name, value) :: fields)).lexemes =
          [Lexeme.lbrace, .scalar (.string name), .colon] ++ value.lexemes ++
            lexemesOfFields fields ++ [.rbrace] := rfl
      rw [hlexemes, List.append_assoc, List.append_assoc, List.foldlM_append, hname,
        Option.bind_eq_bind, Option.bind_some, List.foldlM_append, hvalue, Option.bind_eq_bind,
        Option.bind_some, foldlM_next_fields hfields]
      rfl

/-- What is written is read back, in whatever layout it is written. -/
theorem read?_write {value : Json} (h : value.WellFormed) (l : Layout) :
    read? (value.write l) = some value := by
  have hlexemes : lexemes? (value.write l) = some value.lexemes := by
    have hrun := h.writesLexemes l 0 [] [] endsWord_nil
    rw [List.append_nil, List.append_nil] at hrun
    rw [lexemes?_eq_run, write, hrun]
    simp [Lexing.run, Lexing.finish?]
  simp [read?, hlexemes, h.builds []]

end Json

end TexLint
