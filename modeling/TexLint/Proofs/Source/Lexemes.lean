import TexLint.Proofs.Source.Tokens

/-!
# What tokens are written with

The characters of a token follow a few patterns, one or more for each kind of token. Which of
them it may have depends on the character behind it, since a token goes on as long as it can.

## The model

* `Lexeme` lists the patterns, given the character behind the token.
* `Lexed` says of a token sequence that each of its tokens has a pattern.
* `Grown` lists what a token of each shape has taken so far; it is the invariant of reading.

## What is proved

* `lexed_tokenize`: the tokens of a text follow the patterns.
* `Lexed.left`, `Lexed.right`: so do those of each part of it.
-/

namespace TexLint

/-- The characters that stand alone. -/
theorem Shape.start_eq_single {c : Char} {kind : TokenKind} (h : Shape.start c = .single kind) :
    c = '{' ∧ kind = .lbrace ∨ c = '}' ∧ kind = .rbrace ∨ c = '[' ∧ kind = .lbracket ∨
      c = ']' ∧ kind = .rbracket ∨ c = '$' ∧ kind = .dollar := by
  unfold Shape.start at h
  split_ifs at h <;> cases h <;> simp [*]

/-- What a token is written with that stands before the given character, or at the end of a
text. -/
inductive Lexeme (next : Option Char) : Token → Prop where
  /-- A character that stands alone. -/
  | single {kind : TokenKind} {c : Char} : Shape.start c = .single kind → Lexeme next ⟨kind, [c]⟩
  /-- A comment, which goes on to the end of its line. -/
  | comment {body : Text} : (∀ c ∈ body, c ≠ '\n' ∧ c ≠ '\r') →
      (∀ c ∈ next, c = '\n' ∨ c = '\r') → Lexeme next ⟨.comment, '%' :: body⟩
  /-- A run of whitespace. -/
  | whitespace {run : Text} : run ≠ [] → (∀ c ∈ run, isWhitespace c = true) →
      (∀ c ∈ next, isWhitespace c = false) → Lexeme next ⟨.whitespace, run⟩
  /-- A run of plain text. -/
  | text {run : Text} : run ≠ [] → (∀ c ∈ run, isTextChar c = true) →
      (∀ c ∈ next, isTextChar c = false) → Lexeme next ⟨.text, run⟩
  /-- A control word without a star. -/
  | word {letters : Text} : letters ≠ [] → (∀ c ∈ letters, isCommandLetter c = true) →
      (∀ c ∈ next, isCommandLetter c = false ∧ c ≠ '*') → Lexeme next ⟨.command, '\\' :: letters⟩
  /-- A control word with its star. -/
  | starred {letters : Text} : letters ≠ [] → (∀ c ∈ letters, isCommandLetter c = true) →
      Lexeme next ⟨.command, '\\' :: letters ++ ['*']⟩
  /-- A control symbol. -/
  | symbol {c : Char} : isCommandLetter c = false → Lexeme next ⟨.command, ['\\', c]⟩
  /-- A backslash that ends the text. -/
  | backslash : next = none → Lexeme next ⟨.command, ['\\']⟩

namespace Lexeme

variable {next : Option Char} {t : Token}

theorem text_ne_nil (h : Lexeme next t) : t.text ≠ [] := by
  cases h with
  | whitespace hne | text hne => exact hne
  | single | comment | word | starred | symbol | backslash => exact List.cons_ne_nil _ _

/-- A token of a kind that has one character is written with it. -/
theorem text_eq_singleton {kind : TokenKind} {c : Char} (h : Lexeme next t)
    (hc : Shape.start c = .single kind) (hkind : t.kind = kind) : t.text = [c] := by
  have hcases := Shape.start_eq_single hc
  cases h with
  | single hd =>
    have := Shape.start_eq_single hd
    grind
  | comment | whitespace | text | word | starred | symbol | backslash => grind

/-- A comment begins with its sign. -/
theorem percent_mem (h : Lexeme next t) (hkind : t.kind = .comment) : '%' ∈ t.text := by
  cases h with
  | single hc =>
    have := Shape.start_eq_single hc
    grind
  | comment => exact List.mem_cons_self
  | whitespace | text | word | starred | symbol | backslash => cases hkind

/-- What stands behind a token may go. -/
theorem atEnd (h : Lexeme next t) : Lexeme none t := by
  cases h with
  | single hc => exact .single hc
  | comment hbody => exact .comment hbody (by simp)
  | whitespace hne hrun => exact .whitespace hne hrun (by simp)
  | text hne hrun => exact .text hne hrun (by simp)
  | word hne hletters => exact .word hne hletters (by simp)
  | starred hne hletters => exact .starred hne hletters
  | symbol hc => exact .symbol hc
  | backslash => exact .backslash rfl

end Lexeme

/-- Each token of a sequence follows a pattern, given what stands behind it. -/
def Lexed : List Token → Prop
  | [] => True
  | t :: tokens => Lexeme (tokensText tokens).head? t ∧ Lexed tokens

namespace Lexed

variable {a b : List Token}

/-- The comments of a sequence begin with their sign. -/
theorem percent_mem (h : Lexed a) : ∀ t ∈ a, t.kind = .comment → '%' ∈ t.text := by
  induction a with
  | nil => simp
  | cons t a ih => exact List.forall_mem_cons.mpr ⟨h.1.percent_mem, ih h.2⟩

theorem right (h : Lexed (a ++ b)) : Lexed b := by
  induction a with
  | nil => exact h
  | cons t a ih => exact ih h.2

theorem left (h : Lexed (a ++ b)) : Lexed a := by
  induction a with
  | nil => trivial
  | cons t a ih =>
    refine ⟨?_, ih h.2⟩
    cases a with
    | nil => exact h.1.atEnd
    | cons u a =>
      -- The token behind `t` is not empty, so its first character is all that counts.
      obtain ⟨c, rest, htext⟩ := List.exists_cons_of_ne_nil h.2.1.text_ne_nil
      have hfirst : (tokensText (u :: a ++ b)).head? = (tokensText (u :: a)).head? := by
        simp [tokensText, htext]
      exact hfirst ▸ h.1

theorem of_infix (hab : a <:+: b) (h : Lexed b) : Lexed a := by
  obtain ⟨before, behind, rfl⟩ := hab
  exact h.left.right

end Lexed

/-! ### Reading -/

/-- What a token of some shape has taken so far. -/
inductive Grown : Shape → Text → Prop where
  /-- A character that stands alone. -/
  | single {kind : TokenKind} {c : Char} : Shape.start c = .single kind → Grown (.single kind) [c]
  /-- A comment. -/
  | comment {body : Text} : (∀ c ∈ body, c ≠ '\n' ∧ c ≠ '\r') → Grown .comment ('%' :: body)
  /-- Whitespace. -/
  | whitespace {run : Text} : run ≠ [] → (∀ c ∈ run, isWhitespace c = true) →
      Grown .whitespace run
  /-- Plain text. -/
  | text {run : Text} : run ≠ [] → (∀ c ∈ run, isTextChar c = true) → Grown .text run
  /-- A backslash alone. -/
  | backslash : Grown .backslash ['\\']
  /-- A control word. -/
  | word {letters : Text} : letters ≠ [] → (∀ c ∈ letters, isCommandLetter c = true) →
      Grown .word ('\\' :: letters)
  /-- A control word with its star. -/
  | starred {letters : Text} : letters ≠ [] → (∀ c ∈ letters, isCommandLetter c = true) →
      Grown .finished ('\\' :: letters ++ ['*'])
  /-- A control symbol. -/
  | symbol {c : Char} : isCommandLetter c = false → Grown .finished ['\\', c]

namespace Grown

variable {s s' : Shape} {read : Text} {c : Char}

theorem start (c : Char) : Grown (Shape.start c) [c] := by
  cases h : Shape.start c with
  | single kind => exact .single h
  | comment =>
    obtain rfl : c = '%' := by grind [Shape.start]
    exact .comment (by simp)
  | whitespace =>
    have hspace : isWhitespace c = true := by grind [Shape.start]
    exact .whitespace (by simp) (by simpa using hspace)
  | text =>
    have htext : isTextChar c = true := by grind [Shape.start, isTextChar]
    exact .text (by simp) (by simpa using htext)
  | backslash =>
    obtain rfl : c = '\\' := by grind [Shape.start]
    exact .backslash
  | word | finished => grind [Shape.start]

theorem append_forall {P : Char → Prop} {run : Text} (h : ∀ d ∈ run, P d) (hc : P c) :
    ∀ d ∈ run ++ [c], P d :=
  List.forall_mem_append.mpr ⟨h, List.forall_mem_singleton.mpr hc⟩

/-- A token grows by a character that its shape takes. -/
theorem next (h : Grown s read) (hnext : s.next? c = some s') : Grown s' (read ++ [c]) := by
  cases h with
  | single | starred | symbol => cases hnext
  | @comment body hbody =>
    simp only [Shape.next?, Option.ite_none_left_eq_some, not_or, Option.some.injEq] at hnext
    obtain ⟨hc, rfl⟩ := hnext
    exact .comment (append_forall hbody hc)
  | whitespace hne hrun =>
    simp only [Shape.next?, Option.ite_none_right_eq_some, Option.some.injEq] at hnext
    obtain ⟨hc, rfl⟩ := hnext
    exact .whitespace (by simp) (append_forall hrun hc)
  | text hne hrun =>
    simp only [Shape.next?, Option.ite_none_right_eq_some, Option.some.injEq] at hnext
    obtain ⟨hc, rfl⟩ := hnext
    exact .text (by simp) (append_forall hrun hc)
  | backslash =>
    simp only [Shape.next?, Option.some.injEq] at hnext
    subst hnext
    split
    · next hc => exact .word (List.cons_ne_nil c []) (by simpa using hc)
    · next hc => exact .symbol (by simpa using hc)
  | word hne hletters =>
    simp only [Shape.next?] at hnext
    split at hnext
    · next hc =>
      obtain rfl := Option.some.inj hnext
      exact .word (by simp) (append_forall hletters hc)
    · simp only [Option.ite_none_right_eq_some, Option.some.injEq] at hnext
      obtain ⟨rfl, rfl⟩ := hnext
      exact .starred hne hletters

/-- A token that takes no more has a pattern. -/
theorem lexeme {behind : Option Char} (h : Grown s read)
    (hbehind : ∀ c ∈ behind, s.next? c = none) : Lexeme behind ⟨s.kind, read⟩ := by
  cases h with
  | single hc => exact .single hc
  | comment hbody =>
    refine .comment hbody fun c hc => ?_
    simpa [Shape.next?, or_iff_not_imp_left] using hbehind c hc
  | whitespace hne hrun =>
    exact .whitespace hne hrun fun c hc => by simpa [Shape.next?] using hbehind c hc
  | text hne hrun =>
    exact .text hne hrun fun c hc => by simpa [Shape.next?] using hbehind c hc
  | backslash =>
    cases behind with
    | none => exact .backslash rfl
    | some c => cases hbehind c rfl
  | word hne hletters =>
    refine .word hne hletters fun c hc => ?_
    have hnone := hbehind c hc
    simp only [Shape.next?] at hnone
    grind
  | starred hne hletters => exact .starred hne hletters
  | symbol hc => exact .symbol hc

end Grown

theorem lexed_tokenizeFrom (o : OpenToken) (text : Text) (ho : Grown o.shape o.taken.reverse) :
    Lexed (tokenizeFrom [] o text) := by
  induction text generalizing o with
  | nil => exact ⟨ho.lexeme (by simp [tokensText]), trivial⟩
  | cons c rest ih =>
    rw [tokenizeFrom]
    split
    · next shape hshape =>
      refine ih _ ?_
      rw [List.reverse_cons]
      exact ho.next hshape
    · next hshape =>
      rw [tokenizeFrom_eq, List.reverse_singleton, List.singleton_append]
      refine ⟨ho.lexeme ?_, ih _ (.start c)⟩
      rw [tokensText_tokenizeFrom]
      simpa [tokensText, OpenToken.start] using hshape

/-- The tokens of a text follow the patterns. -/
theorem lexed_tokenize (text : Text) : Lexed (tokenize text) := by
  cases text with
  | nil => trivial
  | cons c rest => exact lexed_tokenizeFrom (.start c) rest (.start c)

end TexLint
