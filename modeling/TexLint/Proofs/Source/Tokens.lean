import TexLint.Source.Token
import Mathlib.Data.List.Basic

/-!
# Where tokens begin

Tokens are read from left to right, and what a token is depends on what stands before it.
This module says when it does not: where a text can be cut so that its tokens are those of
the two sides.

## What is proved

* `tokenize_append`: the tokens of two texts, one behind the other, are those of the first
  and then those of the second, if no token of the first goes on into the second (`Cuts`).
* `cuts_newline`: no token goes on behind a line end into a backslash, whatever comes
  before the line end: a comment, whitespace, a backslash that takes the line end.
* `begins_of_mem_tokenize`: the first character of a token says what kind it is.
-/

namespace TexLint

/-! ### The shape behind a text -/

/-- The shape of the last token when a token of the given shape and then a text have been
read. -/
def Shape.after (s : Shape) : Text → Shape
  | [] => s
  | c :: rest => ((s.next? c).getD (.start c)).after rest

theorem Shape.after_append (s : Shape) (a b : Text) : s.after (a ++ b) = (s.after a).after b := by
  induction a generalizing s with
  | nil => rfl
  | cons c a ih => exact ih _

/-- No token goes on from the end of a text to the given character. -/
def Cuts : Text → Char → Prop
  | [], _ => True
  | d :: before, c => ((Shape.start d).after before).next? c = none

theorem cuts_cons {d c : Char} {before : Text} :
    Cuts (d :: before) c ↔ ((Shape.start d).after before).next? c = none := Iff.rfl

/-- Behind a token of one character another one begins. -/
theorem cuts_single {d : Char} {kind : TokenKind} (h : Shape.start d = .single kind) (c : Char) :
    Cuts [d] c := by
  rw [cuts_cons, h]
  rfl

/-- A run of plain text goes on as plain text only. -/
theorem Shape.after_text {text : Text} (h : ∀ c ∈ text, isTextChar c = true) :
    Shape.text.after text = .text := by
  induction text with
  | nil => rfl
  | cons c text ih =>
    rw [after, next?, if_pos (h c List.mem_cons_self)]
    exact ih fun d hd => h d (List.mem_cons_of_mem _ hd)

/-- A character of plain text begins a run of plain text. -/
theorem Shape.start_of_isTextChar {c : Char} (h : isTextChar c = true) : start c = .text := by
  simp only [isTextChar, Bool.not_eq_true', Bool.or_eq_false_iff, beq_eq_false_iff_ne, ne_eq] at h
  simp [start, h]

/-- Behind a run of plain text a token begins with a character that is not plain text. -/
theorem cuts_text {text : Text} {c : Char} (h : ∀ d ∈ text, isTextChar d = true)
    (hc : isTextChar c = false) : Cuts text c := by
  cases text with
  | nil => trivial
  | cons d text =>
    rw [cuts_cons, Shape.start_of_isTextChar (h d List.mem_cons_self),
      Shape.after_text fun e he => h e (List.mem_cons_of_mem _ he), Shape.next?, hc]
    rfl

/-- Behind a line end a backslash begins a token. -/
theorem cuts_newline (before : Text) : Cuts (before ++ ['\n']) '\\' := by
  have hstart : Shape.start '\n' = .whitespace := by decide
  have hword : isCommandLetter '\n' = false := by decide
  cases before with
  | nil => exact cuts_cons.mpr (by decide)
  | cons d before =>
    rw [List.cons_append, cuts_cons, Shape.after_append]
    generalize (Shape.start d).after before = s
    -- The line end is taken by a backslash or by whitespace, or begins whitespace.
    cases s <;> simp [Shape.after, Shape.next?, hstart, hword, isWhitespace, isTextChar]

/-! ### Cutting a text -/

/-- The tokens that are finished come first. -/
theorem tokenizeFrom_eq (done : List Token) (o : OpenToken) (text : Text) :
    tokenizeFrom done o text = done.reverse ++ tokenizeFrom [] o text := by
  induction text generalizing done o with
  | nil => simp [tokenizeFrom]
  | cons c rest ih =>
    rw [tokenizeFrom, tokenizeFrom]
    split
    · exact ih _ _
    · rw [ih, ih [o.close]]
      simp

theorem tokenizeFrom_append (o : OpenToken) (a b : Text) (c : Char)
    (h : (o.shape.after a).next? c = none) :
    tokenizeFrom [] o (a ++ c :: b) = tokenizeFrom [] o a ++ tokenize (c :: b) := by
  induction a generalizing o with
  | nil =>
    have hnext : o.shape.next? c = none := h
    have hread : tokenizeFrom [] o (c :: b) = tokenizeFrom [o.close] (.start c) b := by
      rw [tokenizeFrom, hnext]
    rw [List.nil_append, hread, tokenizeFrom_eq]
    rfl
  | cons d a ih =>
    rw [Shape.after] at h
    rw [List.cons_append, tokenizeFrom, tokenizeFrom]
    split
    · next shape hshape =>
      rw [hshape] at h
      exact ih _ h
    · next hshape =>
      rw [hshape] at h
      rw [tokenizeFrom_eq, tokenizeFrom_eq [o.close], ih (.start d) h]
      simp

/-- A text may be cut where no token goes on. -/
theorem tokenize_append {a : Text} {c : Char} (h : Cuts a c) (b : Text) :
    tokenize (a ++ c :: b) = tokenize a ++ tokenize (c :: b) := by
  cases a with
  | nil => rfl
  | cons d a => exact tokenizeFrom_append (.start d) a b c h

/-- A run of plain text is one token. -/
theorem tokenize_text {text : Text} (hne : text ≠ []) (h : ∀ c ∈ text, isTextChar c = true) :
    tokenize text = [⟨.text, text⟩] := by
  have hrun (taken rest : Text) (hrest : ∀ c ∈ rest, isTextChar c = true) :
      tokenizeFrom [] ⟨.text, taken⟩ rest = [⟨.text, taken.reverse ++ rest⟩] := by
    induction rest generalizing taken with
    | nil => simp [tokenizeFrom, OpenToken.close, Shape.kind]
    | cons c rest ih =>
      rw [tokenizeFrom, Shape.next?, if_pos (hrest c List.mem_cons_self)]
      simpa using ih (c :: taken) fun d hd => hrest d (List.mem_cons_of_mem _ hd)
  cases text with
  | nil => exact absurd rfl hne
  | cons c text =>
    rw [tokenize, OpenToken.start, Shape.start_of_isTextChar (h c List.mem_cons_self)]
    exact hrun [c] text fun d hd => h d (List.mem_cons_of_mem _ hd)

/-- A run of plain text ends where the next character is not plain text. -/
theorem tokenize_text_append {text : Text} {c : Char} (hne : text ≠ [])
    (h : ∀ d ∈ text, isTextChar d = true) (hc : isTextChar c = false) (b : Text) :
    tokenize (text ++ c :: b) = ⟨.text, text⟩ :: tokenize (c :: b) := by
  rw [tokenize_append (cuts_text h hc), tokenize_text hne h]
  rfl

/-- A character that stands alone is a token. -/
theorem tokenize_single {c : Char} {kind : TokenKind} (h : Shape.start c = .single kind)
    (b : Text) : tokenize (c :: b) = ⟨kind, [c]⟩ :: tokenize b := by
  have hone : tokenize [c] = [⟨kind, [c]⟩] := by
    rw [tokenize, OpenToken.start, h]
    rfl
  cases b with
  | nil => exact hone
  | cons d b =>
    rw [← List.singleton_append, tokenize_append (cuts_single h d), hone]
    rfl

/-! ### Kinds -/

theorem Shape.kind_of_next? {s s' : Shape} {c : Char} (h : s.next? c = some s') :
    s'.kind = s.kind := by
  cases s with
  | backslash => simp only [next?] at h; split at h <;> (cases h; rfl)
  | word => simp only [next?] at h; split at h <;> grind [kind]
  | finished => cases h
  | single kind => cases h
  | comment => simp only [next?] at h; split at h <;> grind [kind]
  | whitespace => simp only [next?] at h; split at h <;> grind [kind]
  | text => simp only [next?] at h; split at h <;> grind [kind]

/-- The first character of a token and its kind go together. -/
def Token.Begins (t : Token) : Prop :=
  ∃ c rest, t.text = c :: rest ∧ t.kind = (Shape.start c).kind

theorem begins_of_mem_tokenizeFrom (o : OpenToken) (text : Text) (ho : o.close.Begins) :
    ∀ t ∈ tokenizeFrom [] o text, t.Begins := by
  induction text generalizing o with
  | nil => simpa [tokenizeFrom] using ho
  | cons c rest ih =>
    rw [tokenizeFrom]
    split
    · next shape hshape =>
      refine ih _ ?_
      obtain ⟨d, taken, htext, hkind⟩ := ho
      refine ⟨d, taken ++ [c], ?_, (Shape.kind_of_next? hshape).trans hkind⟩
      have htaken : o.taken.reverse = d :: taken := htext
      simp [OpenToken.close, htaken]
    · rw [tokenizeFrom_eq]
      intro t ht
      rcases List.mem_append.mp ht with ht | ht
      · simp only [List.reverse_singleton, List.mem_singleton] at ht
        exact ht ▸ ho
      · exact ih (.start c) ⟨c, [], rfl, rfl⟩ t ht

/-- Each token of a text has a first character, which says what kind of token it is. -/
theorem begins_of_mem_tokenize {text : Text} {t : Token} (h : t ∈ tokenize text) : t.Begins := by
  cases text with
  | nil => simp [tokenize] at h
  | cons c rest => exact begins_of_mem_tokenizeFrom (.start c) rest ⟨c, [], rfl, rfl⟩ t h

theorem Token.Begins.text_ne_nil {t : Token} (h : t.Begins) : t.text ≠ [] := by
  obtain ⟨c, rest, htext, -⟩ := h
  simp [htext]

/-- A control sequence begins with a backslash. -/
theorem Token.Begins.backslash {t : Token} (h : t.Begins) (hkind : t.kind = .command) :
    ∃ rest, t.text = '\\' :: rest := by
  obtain ⟨c, rest, htext, hc⟩ := h
  rw [hkind] at hc
  by_cases hb : c = '\\'
  · exact ⟨rest, hb ▸ htext⟩
  · unfold Shape.start at hc
    grind [Shape.kind]

end TexLint
