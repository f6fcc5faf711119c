import TexLint.Proofs.Source.Lexemes
import TexLint.Proofs.Source.Places

/-!
# Reading tokens back

A sequence of tokens that follow the patterns is read back from its text. So the patterns decide
where a text is cut, and what stands behind a brace does not depend on what stands before it.

## The model

* `Shape.reads` is the shape of a token after a run of characters that it takes.

## What is proved

* `tokenize_append_of_reads`: a token goes on to the character that it does not take.
* `Lexeme.tokenize_append`: a text that begins with a token is cut behind it.
* `Lexed.tokenize_tokensText`: tokens that follow the patterns are those of their text.
* `tokenize_append_of_rbrace`: a text is cut behind a closing brace, whatever follows.
-/

namespace TexLint

namespace Shape

/-- The shape of a token after a run of characters, if it takes them all. -/
def reads (s : Shape) : Text → Option Shape
  | [] => some s
  | c :: run => (s.next? c).bind (·.reads run)

/-- A run of characters that do not change the shape. -/
theorem reads_run {s : Shape} {run : Text} (h : ∀ c ∈ run, s.next? c = some s) :
    s.reads run = some s := by
  induction run with
  | nil => rfl
  | cons c run ih =>
    rw [reads, h c List.mem_cons_self, Option.bind_some]
    exact ih fun d hd => h d (List.mem_cons_of_mem _ hd)

theorem reads_append (s : Shape) (a b : Text) :
    s.reads (a ++ b) = (s.reads a).bind (·.reads b) := by
  induction a generalizing s with
  | nil => rfl
  | cons c a ih =>
    rw [List.cons_append, reads, reads, Option.bind_assoc]
    exact congrArg _ (funext fun s' => ih s')

theorem start_of_isWhitespace {c : Char} (h : isWhitespace c = true) : start c = .whitespace := by
  have hne (d : Char) (hd : isWhitespace d = false) : c ≠ d := by
    rintro rfl
    rw [h] at hd
    cases hd
  simp [start, h, hne '\\' (by decide), hne '{' (by decide), hne '}' (by decide),
    hne '[' (by decide), hne ']' (by decide), hne '$' (by decide), hne '%' (by decide)]

end Shape

/-! ### One token -/

theorem tokenizeFrom_append_of_reads {s s' : Shape} (taken run : Text) {rest : Text}
    (hrun : s.reads run = some s') (hrest : ∀ d ∈ rest.head?, s'.next? d = none) :
    tokenizeFrom [] ⟨s, taken⟩ (run ++ rest) =
      ⟨s'.kind, taken.reverse ++ run⟩ :: tokenize rest := by
  induction run generalizing s taken with
  | nil =>
    obtain rfl := Option.some.inj hrun
    cases rest with
    | nil => simp [tokenizeFrom, OpenToken.close, tokenize]
    | cons d rest =>
      rw [List.nil_append, tokenizeFrom, hrest d rfl, tokenizeFrom_eq]
      simp [OpenToken.close, tokenize]
  | cons c run ih =>
    obtain ⟨next, hnext, hrun⟩ := Option.bind_eq_some_iff.mp hrun
    rw [List.cons_append, tokenizeFrom, hnext]
    simpa using ih (c :: taken) hrun

/-- A token goes on to the character that it does not take. -/
theorem tokenize_append_of_reads {c : Char} {run rest : Text} {s : Shape}
    (hrun : (Shape.start c).reads run = some s) (hrest : ∀ d ∈ rest.head?, s.next? d = none) :
    tokenize (c :: run ++ rest) = ⟨s.kind, c :: run⟩ :: tokenize rest :=
  tokenizeFrom_append_of_reads [c] run hrun hrest

/-- A control word that has been read. -/
theorem reads_word {letters : Text} (hne : letters ≠ [])
    (h : ∀ c ∈ letters, isCommandLetter c = true) : Shape.backslash.reads letters = some .word := by
  obtain ⟨c, letters, rfl⟩ := List.exists_cons_of_ne_nil hne
  rw [Shape.reads, Shape.next?, if_pos (h c List.mem_cons_self), Option.bind_some]
  exact Shape.reads_run fun d hd => by
    rw [Shape.next?, if_pos (h d (List.mem_cons_of_mem _ hd))]

/-- A text that begins with a token is cut behind it. -/
theorem Lexeme.tokenize_append {t : Token} {rest : Text} (h : Lexeme rest.head? t) :
    tokenize (t.text ++ rest) = t :: tokenize rest := by
  cases h with
  | single hc => exact tokenize_single hc rest
  | comment hbody hnext =>
    have hrun : Shape.comment.reads _ = some .comment := Shape.reads_run fun c hc => by
      rw [Shape.next?, if_neg (not_or.mpr (hbody c hc))]
    refine tokenize_append_of_reads (s := .comment) hrun fun c hc => ?_
    rw [Shape.next?, if_pos (hnext c hc)]
  | whitespace hne hrun hnext =>
    obtain ⟨c, run, rfl⟩ := List.exists_cons_of_ne_nil hne
    have hstart := Shape.start_of_isWhitespace (hrun c List.mem_cons_self)
    refine tokenize_append_of_reads (s := .whitespace) ?_ fun d hd => ?_
    · rw [hstart]
      exact Shape.reads_run fun d hd => by
        rw [Shape.next?, if_pos (hrun d (List.mem_cons_of_mem _ hd))]
    · rw [Shape.next?, hnext d hd]
      rfl
  | text hne hrun hnext =>
    obtain ⟨c, run, rfl⟩ := List.exists_cons_of_ne_nil hne
    have hstart := Shape.start_of_isTextChar (hrun c List.mem_cons_self)
    refine tokenize_append_of_reads (s := .text) ?_ fun d hd => ?_
    · rw [hstart]
      exact Shape.reads_run fun d hd => by
        rw [Shape.next?, if_pos (hrun d (List.mem_cons_of_mem _ hd))]
    · rw [Shape.next?, hnext d hd]
      rfl
  | word hne hletters hnext =>
    refine tokenize_append_of_reads (s := .word) (reads_word hne hletters) fun d hd => ?_
    obtain ⟨hletter, hstar⟩ := hnext d hd
    rw [Shape.next?, hletter, if_neg (by decide), if_neg hstar]
  | @starred letters hne hletters =>
    refine tokenize_append_of_reads (s := .finished) ?_ fun d hd => rfl
    show Shape.backslash.reads (letters ++ ['*']) = _
    rw [Shape.reads_append, reads_word hne hletters]
    decide
  | symbol hc =>
    refine tokenize_append_of_reads (s := .finished) ?_ fun d hd => rfl
    show (Shape.backslash.next? _).bind _ = _
    rw [Shape.next?, hc]
    rfl
  | backslash hnext =>
    obtain rfl := List.head?_eq_none_iff.mp hnext
    rfl

/-! ### Sequences of tokens -/

namespace Lexed

variable {tokens a b b' : List Token} {t : Token}

/-- Tokens that follow the patterns are those of their text. -/
theorem tokenize_tokensText (h : Lexed tokens) : tokenize (tokensText tokens) = tokens := by
  induction tokens with
  | nil => rfl
  | cons t tokens ih =>
    rw [tokensText_cons, h.1.tokenize_append, ih h.2]

/-- Tokens may be exchanged for others that begin with the same character. -/
theorem replace {t' : Token} (h : Lexed (a ++ t :: b)) (h' : Lexed (t' :: b'))
    (hhead : t'.text.head? = t.text.head?) : Lexed (a ++ t' :: b') := by
  induction a with
  | nil => exact h'
  | cons u a ih =>
    refine ⟨?_, ih h.2⟩
    have hfirst : (tokensText (a ++ t' :: b')).head? = (tokensText (a ++ t :: b)).head? := by
      cases a with
      | nil =>
        obtain ⟨c, rest, htext⟩ := List.exists_cons_of_ne_nil h.right.1.text_ne_nil
        obtain ⟨c', rest', htext'⟩ := List.exists_cons_of_ne_nil h'.1.text_ne_nil
        rw [htext, htext'] at hhead
        simpa [tokensText, htext, htext'] using hhead
      | cons w a =>
        obtain ⟨c, rest, htext⟩ := List.exists_cons_of_ne_nil h.2.1.text_ne_nil
        simp [tokensText, htext]
    exact hfirst ▸ h.1

/-- What follows a token does not matter to those before it. -/
theorem exchange (h : Lexed (a ++ t :: b)) (ht : ∀ next, Lexeme next t) (hb : Lexed b') :
    Lexed (a ++ t :: b') :=
  h.replace ⟨ht _, hb⟩ rfl

end Lexed

/-- A closing brace is a token, whatever follows. -/
theorem lexeme_of_rbrace {next : Option Char} {t : Token} (h : Lexeme next t)
    (hkind : t.kind = .rbrace) (next' : Option Char) : Lexeme next' t := by
  obtain ⟨kind, text⟩ := t
  have htext := h.text_eq_singleton (c := '}') (by decide) hkind
  obtain rfl : kind = .rbrace := hkind
  obtain rfl : text = ['}'] := htext
  exact .single (by decide)

/-- A text is cut behind a closing brace, whatever follows. -/
theorem tokenize_append_of_rbrace {text : Text} {before behind : List Token} {r : Token}
    (h : tokenize text = before ++ r :: behind) (hr : r.kind = .rbrace) (rest : Text) :
    tokenize (tokensText (before ++ [r]) ++ rest) = before ++ [r] ++ tokenize rest := by
  have hlexed : Lexed (before ++ r :: behind) := h ▸ lexed_tokenize text
  have hbrace (next : Option Char) : Lexeme next r := lexeme_of_rbrace hlexed.right.1 hr next
  have hexchanged := (hlexed.exchange hbrace (lexed_tokenize rest)).tokenize_tokensText
  have htext : tokensText (before ++ r :: tokenize rest) = tokensText (before ++ [r]) ++ rest := by
    rw [List.append_cons, tokensText_append, tokensText_tokenize]
  rw [← htext, hexchanged]
  simp

end TexLint
