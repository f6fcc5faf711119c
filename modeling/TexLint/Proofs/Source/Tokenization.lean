import TexLint.Proofs.Source.Lexing

/-!
# The one way to read a text

The kinds of token and their patterns say nothing of reading from left to right. Together with the
rule that a token takes all it can, they leave one way to divide a text.

## The model

* `Token.Shaped`: the pattern of each kind of token, whatever stands behind it.
* `Token.TakesMore`: with one more character the token still has the pattern of its kind.
* `Maximal`: no token of a sequence takes the character behind it.

## What is proved

* `lexeme_iff`: the patterns that depend on the next character are these two rules.
* `eq_tokenize_iff`: the tokens of a text are the only maximal tokens that make up the text.
-/

namespace TexLint

/-- A token is written with the pattern of its kind. -/
inductive Token.Shaped : Token → Prop where
  /-- An opening brace. -/
  | lbrace : Shaped ⟨.lbrace, ['{']⟩
  /-- A closing brace. -/
  | rbrace : Shaped ⟨.rbrace, ['}']⟩
  /-- An opening bracket. -/
  | lbracket : Shaped ⟨.lbracket, ['[']⟩
  /-- A closing bracket. -/
  | rbracket : Shaped ⟨.rbracket, [']']⟩
  /-- A dollar sign. -/
  | dollar : Shaped ⟨.dollar, ['$']⟩
  /-- A comment sign and what is on its line. -/
  | comment {body : Text} : (∀ c ∈ body, c ≠ '\n' ∧ c ≠ '\r') → Shaped ⟨.comment, '%' :: body⟩
  /-- A run of whitespace. -/
  | whitespace {run : Text} : run ≠ [] → (∀ c ∈ run, isWhitespace c = true) →
      Shaped ⟨.whitespace, run⟩
  /-- A run of plain text. -/
  | text {run : Text} : run ≠ [] → (∀ c ∈ run, isTextChar c = true) → Shaped ⟨.text, run⟩
  /-- A control word without a star. -/
  | word {letters : Text} : letters ≠ [] → (∀ c ∈ letters, isCommandLetter c = true) →
      Shaped ⟨.command, '\\' :: letters⟩
  /-- A control word with its star. -/
  | starred {letters : Text} : letters ≠ [] → (∀ c ∈ letters, isCommandLetter c = true) →
      Shaped ⟨.command, '\\' :: letters ++ ['*']⟩
  /-- A control symbol. -/
  | symbol {c : Char} : isCommandLetter c = false → Shaped ⟨.command, ['\\', c]⟩
  /-- A backslash alone. -/
  | backslash : Shaped ⟨.command, ['\\']⟩

/-- A token with one more character still has the pattern of its kind. -/
def Token.TakesMore (t : Token) (c : Char) : Prop := Shaped ⟨t.kind, t.text ++ [c]⟩

/-- No token of a sequence takes the character behind it. -/
def Maximal : List Token → Prop
  | [] => True
  | t :: tokens => (∀ c ∈ (tokensText tokens).head?, ¬ t.TakesMore c) ∧ Maximal tokens

section Tokens

variable {next : Option Char} {t : Token}

theorem Lexeme.shaped (h : Lexeme next t) : t.Shaped := by
  cases h with
  | single hc =>
    rcases Shape.start_eq_single hc with ⟨rfl, rfl⟩ | ⟨rfl, rfl⟩ | ⟨rfl, rfl⟩ | ⟨rfl, rfl⟩ |
      ⟨rfl, rfl⟩
    · exact .lbrace
    · exact .rbrace
    · exact .lbracket
    · exact .rbracket
    · exact .dollar
  | comment hbody => exact .comment hbody
  | whitespace hne hrun => exact .whitespace hne hrun
  | text hne hrun => exact .text hne hrun
  | word hne hletters => exact .word hne hletters
  | starred hne hletters => exact .starred hne hletters
  | symbol hc => exact .symbol hc
  | backslash => exact .backslash

/-- A token that does not take the next character has a pattern before that character. -/
theorem Token.Shaped.lexeme (h : t.Shaped) (hnext : ∀ c ∈ next, ¬ t.TakesMore c) :
    Lexeme next t := by
  cases h with
  | lbrace => exact .single (by decide)
  | rbrace => exact .single (by decide)
  | lbracket => exact .single (by decide)
  | rbracket => exact .single (by decide)
  | dollar => exact .single (by decide)
  | comment hbody =>
    refine .comment hbody fun c hc => ?_
    by_contra hline
    exact hnext c hc (.comment (Grown.append_forall hbody (not_or.mp hline)))
  | whitespace hne hrun =>
    refine .whitespace hne hrun fun c hc => ?_
    by_contra hspace
    exact hnext c hc (.whitespace (by simp) (Grown.append_forall hrun (by simpa using hspace)))
  | text hne hrun =>
    refine .text hne hrun fun c hc => ?_
    by_contra htext
    exact hnext c hc (.text (by simp) (Grown.append_forall hrun (by simpa using htext)))
  | word hne hletters =>
    refine .word hne hletters fun c hc => ⟨?_, ?_⟩
    · by_contra hletter
      exact hnext c hc (.word (by simp) (Grown.append_forall hletters (by simpa using hletter)))
    · rintro rfl
      exact hnext _ hc (.starred hne hletters)
  | starred hne hletters => exact .starred hne hletters
  | symbol hc => exact .symbol hc
  | backslash =>
    cases next with
    | none => exact .backslash rfl
    | some c =>
      refine absurd ?_ (hnext c rfl)
      cases hletter : isCommandLetter c with
      | true => exact .word (List.cons_ne_nil c []) (List.forall_mem_singleton.mpr hletter)
      | false => exact .symbol hletter

/-- A token does not take the character that it stands before. -/
theorem Lexeme.not_takesMore {c : Char} (h : Lexeme (some c) t) : ¬ t.TakesMore c := by
  intro hmore
  -- Otherwise the two would be read as one token, and as two.
  have hone : tokenize (t.text ++ [c]) = [⟨t.kind, t.text ++ [c]⟩] := by
    have hlexeme : Lexeme none ⟨t.kind, t.text ++ [c]⟩ := hmore.lexeme (by simp)
    have hread := @Lexeme.tokenize_append _ [] hlexeme
    rwa [List.append_nil] at hread
  have htwo : tokenize (t.text ++ [c]) = t :: tokenize [c] := @Lexeme.tokenize_append _ [c] h
  rw [hone] at htwo
  have htext := congrArg Token.text (List.cons.inj htwo).1
  simp at htext

/-- A token has a pattern before a character if it has the pattern of its kind and does not take
that character. -/
theorem lexeme_iff : Lexeme next t ↔ t.Shaped ∧ ∀ c ∈ next, ¬ t.TakesMore c := by
  refine ⟨fun h => ⟨h.shaped, fun c hc => ?_⟩, fun ⟨hshaped, hnext⟩ => hshaped.lexeme hnext⟩
  rw [Option.mem_def] at hc
  exact (hc ▸ h).not_takesMore

end Tokens

theorem lexed_iff {tokens : List Token} :
    Lexed tokens ↔ (∀ t ∈ tokens, t.Shaped) ∧ Maximal tokens := by
  induction tokens with
  | nil => simp [Lexed, Maximal]
  | cons t tokens ih =>
    rw [Lexed, Maximal, lexeme_iff, ih, List.forall_mem_cons]
    tauto

/-- The tokens of a text are not empty and follow their patterns, each given the character behind
it. They are the only tokens that make up the text, have the patterns of their kinds and cannot
be extended by the next character. -/
theorem eq_tokenize_iff (text : Text) :
    (∀ t ∈ tokenize text, t.text ≠ []) ∧ Lexed (tokenize text) ∧
    ∀ tokens : List Token, tokens = tokenize text ↔
      tokensText tokens = text ∧ (∀ t ∈ tokens, t.Shaped) ∧ Maximal tokens := by
  refine ⟨fun t ht => (begins_of_mem_tokenize ht).text_ne_nil, lexed_tokenize text,
    fun tokens => ⟨?_, ?_⟩⟩
  · rintro rfl
    exact ⟨tokensText_tokenize text, lexed_iff.mp (lexed_tokenize text)⟩
  · rintro ⟨rfl, hpatterns⟩
    exact (lexed_iff.mpr hpatterns).tokenize_tokensText.symm

/-- Both rules are needed: `\ab` is also the two tokens `\a` and `b`, which have their patterns. -/
example : tokensText [⟨.command, ['\\', 'a']⟩, ⟨.text, ['b']⟩] = ['\\', 'a', 'b'] ∧
    tokenize ['\\', 'a', 'b'] = [⟨.command, ['\\', 'a', 'b']⟩] := by
  decide +kernel

end TexLint
