import TexLint.Proofs.Source.Lexing

/-!
# Line ends

A line end is part of a run of blanks, or a backslash has taken it: then the two are a control
symbol. This decides how a text is read that goes on, or has more in it, behind a line end.

## What is proved

* `Lexeme.of_newline`: which tokens hold a line end.
* `tokenize_lineEnd`: the tokens of a text at the first line end behind some of its tokens.
* `tokenize_concat_newline`, `tokenize_cons_newline`: the tokens of a text with a line end behind
  it, or before it.
-/

namespace TexLint

/-- The control symbol of a backslash that takes a line end. -/
def escapedLineEnd : Token := ⟨.command, ['\\', '\n']⟩

section Tokens

variable {next : Option Char} {t : Token}

/-- A line end is part of blanks, or a backslash takes it. -/
theorem Lexeme.of_newline (h : Lexeme next t) (hmem : '\n' ∈ t.text) :
    t.kind = .whitespace ∨ t = escapedLineEnd := by
  have hletter : isCommandLetter '\n' = false := by decide
  cases h with
  | single hc =>
    obtain rfl := List.mem_singleton.mp hmem
    have hstart : Shape.start '\n' = .whitespace := by decide
    rw [hstart] at hc
    cases hc
  | comment hbody =>
    rcases List.mem_cons.mp hmem with hmem | hmem
    · cases hmem
    · exact absurd rfl (hbody _ hmem).1
  | whitespace => exact .inl rfl
  | text _ hrun => cases hrun _ hmem
  | word _ hletters =>
    rcases List.mem_cons.mp hmem with hmem | hmem
    · cases hmem
    · cases hletter.symm.trans (hletters _ hmem)
  | starred _ hletters =>
    rw [List.cons_append, List.mem_cons, List.mem_append, List.mem_singleton] at hmem
    rcases hmem with hmem | hmem | hmem
    · cases hmem
    · cases hletter.symm.trans (hletters _ hmem)
    · cases hmem
  | @symbol c =>
    rw [List.mem_cons, List.mem_singleton] at hmem
    rcases hmem with hmem | rfl
    · cases hmem
    · exact .inr rfl
  | backslash =>
    rw [List.mem_singleton] at hmem
    cases hmem

theorem isWhitespace_newline : ∀ c ∈ ['\n'], isWhitespace c = true :=
  List.forall_mem_singleton.mpr rfl

/-- Blanks go on as long as there are any. -/
theorem Lexeme.of_whitespace (h : Lexeme next t) (hkind : t.kind = .whitespace) :
    (∀ c ∈ t.text, isWhitespace c = true) ∧ ∀ c ∈ next, isWhitespace c = false := by
  cases h with
  | single hc =>
    have := Shape.start_eq_single hc
    grind
  | whitespace _ hrun hend => exact ⟨hrun, hend⟩
  | comment | text | word | starred | symbol | backslash => cases hkind

/-- Each character of a text is part of a token. -/
theorem exists_token_of_append {tokens : List Token} {before behind : Text} {c : Char}
    (h : tokensText tokens = before ++ c :: behind) : ∃ a t b x y,
      tokens = a ++ t :: b ∧ t.text = x ++ c :: y ∧ before = tokensText a ++ x ∧
        behind = y ++ tokensText b := by
  induction tokens generalizing before with
  | nil => simp [tokensText] at h
  | cons t tokens ih =>
    rw [tokensText_cons] at h
    rcases List.append_eq_append_iff.mp h with ⟨more, rfl, hrest⟩ | ⟨more, hfirst, hrest⟩
    · obtain ⟨a, u, b, x, y, rfl, hu, rfl, rfl⟩ := ih hrest
      exact ⟨t :: a, u, b, x, y, rfl, hu, by simp [tokensText], rfl⟩
    · cases more with
      | nil =>
        rw [List.append_nil] at hfirst
        have hrest : tokensText tokens = [] ++ c :: behind := hrest.symm
        obtain ⟨a, u, b, x, y, rfl, hu, hx, rfl⟩ := ih hrest
        refine ⟨t :: a, u, b, x, y, rfl, hu, ?_, rfl⟩
        rw [← hfirst, tokensText_cons, List.append_assoc]
        exact (List.append_nil _).symm.trans (congrArg (t.text ++ ·) hx)
      | cons d more =>
        obtain ⟨rfl, rfl⟩ := List.cons.inj hrest
        exact ⟨[], t, tokens, before, more, rfl, hfirst, by simp [tokensText], rfl⟩

end Tokens

section Texts

variable {text between behind : Text} {before rest : List Token}

/-- Behind some tokens of a text and the rest of their line, the line end is in blanks or a
backslash takes it. The tokens of the text up to the line end and behind it follow. -/
theorem tokenize_lineEnd (h : tokenize text = before ++ rest)
    (hrest : tokensText rest = between ++ '\n' :: behind) (hbetween : '\n' ∉ between) :
    (∃ a b x y, '\n' ∉ x ∧ tokenize text = a ++ ⟨.whitespace, x ++ '\n' :: y⟩ :: b ∧
      tokenize (tokensText before ++ between ++ ['\n']) = a ++ [⟨.whitespace, x ++ ['\n']⟩] ∧
      tokenize ('\n' :: behind) = ⟨.whitespace, '\n' :: y⟩ :: b) ∨
    ∃ a, tokenize (tokensText before ++ between ++ ['\n']) = a ++ [escapedLineEnd] ∧
      tokenize text = tokenize (tokensText before ++ between ++ ['\n']) ++ tokenize behind := by
  obtain ⟨a, t, b, x, y, rfl, ht, rfl, rfl⟩ := exists_token_of_append hrest
  have hlexed : Lexed (before ++ a ++ t :: b) := by
    rw [List.append_assoc, ← h]
    exact lexed_tokenize text
  rw [List.mem_append, not_or] at hbetween
  rcases hlexed.right.1.of_newline (by simp [ht]) with hkind | rfl
  · obtain ⟨kind, run⟩ := t
    obtain rfl : kind = .whitespace := hkind
    obtain rfl : run = x ++ '\n' :: y := ht
    obtain ⟨hrun, hend⟩ := hlexed.right.1.of_whitespace rfl
    rw [List.forall_mem_append] at hrun
    refine .inl ⟨before ++ a, b, x, y, hbetween.2, by rw [h, List.append_assoc], ?_, ?_⟩
    · have hfirst : Lexed (before ++ a ++ [⟨.whitespace, x ++ ['\n']⟩]) := by
        refine hlexed.replace ⟨.whitespace (by simp) ?_ (by simp [tokensText]), trivial⟩ ?_
        · exact List.forall_mem_append.mpr ⟨hrun.1, isWhitespace_newline⟩
        · cases x <;> rfl
      rw [← hfirst.tokenize_tokensText]
      simp [tokensText]
    · have hlast : Lexed (⟨.whitespace, '\n' :: y⟩ :: b) :=
        ⟨.whitespace (by simp) hrun.2 hend, hlexed.right.2⟩
      rw [← hlast.tokenize_tokensText]
      simp [tokensText]
  · -- Behind a control symbol all texts are cut.
    have hsplit : x = ['\\'] ∧ y = [] := by
      have ht : ['\\', '\n'] = x ++ '\n' :: y := ht
      rcases List.append_eq_cons_iff.mp ht.symm with ⟨-, hnl⟩ | ⟨x', rfl, ht⟩
      · cases hnl
      · cases x' with
        | nil => exact ⟨rfl, by simpa using ht.symm⟩
        | cons c x' => simp at ht
    obtain ⟨rfl, rfl⟩ := hsplit
    have hfirst : Lexed (before ++ a ++ [escapedLineEnd]) :=
      hlexed.replace ⟨.symbol (by decide), trivial⟩ rfl
    have hstart := hfirst.tokenize_tokensText
    have htext : tokensText (before ++ a ++ [escapedLineEnd]) =
        tokensText before ++ (tokensText a ++ ['\\']) ++ ['\n'] := by
      simp [tokensText, escapedLineEnd]
    rw [htext] at hstart
    refine .inr ⟨before ++ a, hstart, ?_⟩
    rw [hstart, h, List.nil_append, hlexed.right.2.tokenize_tokensText]
    simp

/-- A line end behind a text is taken by blanks or a backslash at its end, or it stands alone. -/
theorem tokenize_concat_newline (text : Text) :
    (∃ a x, tokenize text = a ++ [⟨.whitespace, x⟩] ∧
      tokenize (text ++ ['\n']) = a ++ [⟨.whitespace, x ++ ['\n']⟩]) ∨
    (∃ a, tokenize text = a ++ [⟨.command, ['\\']⟩] ∧
      tokenize (text ++ ['\n']) = a ++ [escapedLineEnd]) ∨
    tokenize (text ++ ['\n']) = tokenize text ++ [⟨.whitespace, ['\n']⟩] := by
  have hread {tokens : List Token} (h : Lexed tokens)
      (htokens : tokensText tokens = text ++ ['\n']) : tokenize (text ++ ['\n']) = tokens := by
    rw [← htokens, h.tokenize_tokensText]
  have htext := tokensText_tokenize text
  have hlexed := lexed_tokenize text
  rcases (tokenize text).eq_nil_or_concat' with hnil | ⟨a, t, hconcat⟩
  · rw [hnil] at htext ⊢
    refine .inr (.inr (hread ⟨.whitespace (by simp) isWhitespace_newline ?_, trivial⟩ ?_))
    · simp [tokensText]
    · simp [← htext, tokensText]
  · rw [hconcat] at htext hlexed ⊢
    have hnewline : Lexed [⟨.whitespace, ['\n']⟩] :=
      ⟨.whitespace (by simp) isWhitespace_newline (by simp [tokensText]), trivial⟩
    have halone (h : Lexeme (some '\n') t) :
        tokenize (text ++ ['\n']) = a ++ [t] ++ [⟨.whitespace, ['\n']⟩] := by
      refine hread ?_ (by rw [tokensText_append, htext]; rfl)
      rw [List.append_assoc]
      exact hlexed.replace ⟨h, hnewline⟩ rfl
    have hlast := hlexed.right.1
    cases hlast with
    | @whitespace run hne hrun =>
      refine .inl ⟨a, run, rfl, hread ?_ ?_⟩
      · refine hlexed.replace ⟨.whitespace (by simp) ?_ (by simp [tokensText]), trivial⟩ ?_
        · exact List.forall_mem_append.mpr ⟨hrun, isWhitespace_newline⟩
        · rw [List.head?_append_of_ne_nil _ hne]
      · rw [← htext]
        simp [tokensText]
    | backslash =>
      refine .inr (.inl ⟨a, rfl, hread ?_ ?_⟩)
      · exact hlexed.replace ⟨.symbol (by decide), trivial⟩ rfl
      · rw [← htext]
        simp [tokensText, escapedLineEnd]
    | single hc => exact .inr (.inr (halone (.single hc)))
    | comment hbody => exact .inr (.inr (halone (.comment hbody (by simp))))
    | text hne hrun =>
      have hnext : ∀ c ∈ some '\n', isTextChar c = false := by
        rintro c ⟨⟩
        decide
      exact .inr (.inr (halone (.text hne hrun hnext)))
    | word hne hletters =>
      have hnext : ∀ c ∈ some '\n', isCommandLetter c = false ∧ c ≠ '*' := by
        rintro c ⟨⟩
        decide
      exact .inr (.inr (halone (.word hne hletters hnext)))
    | starred hne hletters => exact .inr (.inr (halone (.starred hne hletters)))
    | symbol hc => exact .inr (.inr (halone (.symbol hc)))

/-- A line end before a text goes into the blanks at its start, or it stands alone. -/
theorem tokenize_cons_newline (text : Text) :
    (∃ run tokens, tokenize text = ⟨.whitespace, run⟩ :: tokens ∧
      tokenize ('\n' :: text) = ⟨.whitespace, '\n' :: run⟩ :: tokens) ∨
    tokenize ('\n' :: text) = ⟨.whitespace, ['\n']⟩ :: tokenize text := by
  have hlexed := lexed_tokenize text
  have htext := tokensText_tokenize text
  have hread {tokens : List Token} (h : Lexed tokens) (htokens : tokensText tokens = '\n' :: text) :
      tokenize ('\n' :: text) = tokens := by
    rw [← htokens, h.tokenize_tokensText]
  by_cases hblank : ∀ c ∈ text.head?, isWhitespace c = false
  · refine .inr (hread ⟨.whitespace (by simp) isWhitespace_newline ?_, hlexed⟩ ?_)
    · rwa [htext]
    · rw [tokensText_cons]
      exact congrArg ('\n' :: ·) htext
  · cases htokens : tokenize text with
    | nil =>
      rw [htokens] at htext
      exact absurd (by simp [← htext, tokensText]) hblank
    | cons t tokens =>
      rw [htokens] at htext hlexed
      obtain ⟨c, rest, hc, hkind⟩ := begins_of_mem_tokenize (htokens ▸ List.mem_cons_self)
      have hwhitespace : t.kind = .whitespace := by
        have hspace : isWhitespace c = true := by
          simpa [← htext, tokensText, hc] using hblank
        rw [hkind, Shape.start_of_isWhitespace hspace]
        rfl
      obtain ⟨kind, run⟩ := t
      obtain rfl : kind = .whitespace := hwhitespace
      obtain ⟨hrun, hend⟩ := hlexed.1.of_whitespace rfl
      refine .inl ⟨run, tokens, rfl, hread ⟨.whitespace (by simp) ?_ hend, hlexed.2⟩ ?_⟩
      · exact List.forall_mem_cons.mpr ⟨by decide, hrun⟩
      · rw [← htext]
        simp [tokensText]

/-- A line end before a text adds no control sequence. -/
theorem mem_tokenize_of_cons_newline {t : Token} (ht : t.kind = .command)
    (h : t ∈ tokenize ('\n' :: text)) : t ∈ tokenize text := by
  have hne (run : Text) : t ≠ ⟨.whitespace, run⟩ := by
    rintro rfl
    cases ht
  rcases tokenize_cons_newline text with ⟨run, tokens, htokens, hmore⟩ | hmore
  · rw [hmore] at h
    rw [htokens]
    exact List.mem_cons_of_mem _ ((List.mem_cons.mp h).resolve_left (hne _))
  · rw [hmore] at h
    exact (List.mem_cons.mp h).resolve_left (hne _)

end Texts

end TexLint
