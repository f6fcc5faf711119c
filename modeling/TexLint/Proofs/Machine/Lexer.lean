import TexLint.Proofs.Machine.Sizes
import TexLint.Proofs.Source.Lexing

/-!
# Reading tokens at offsets

A machine keeps the offset of the next character of a source. It looks at the rest of the text from
there on, and when a token is complete it slices it out of the source.

## The model

* `eatWhile?`, `controlSequence?` and `nextToken?` go on from an offset, `tokens?` reads to the end.

## What is proved

* `nextToken?_lexeme`: at the offset of a token the token is read, and the offset behind it is
  reached.
* `tokens?_eq`: no look and no slice falls inside a character, and the tokens are those of the text.
-/

namespace TexLint

namespace Machine

/-! ### Reading -/

/-- The character at an offset, if the text does not end there. -/
def peek? (text : Text) (position : Nat) : Option (Option Char) :=
  (dropBytes? text position).map (·.head?)

theorem peek?_append (before rest : Text) :
    peek? (before ++ rest) (byteLength before) = some rest.head? := by
  rw [peek?, dropBytes?_byteLength]
  rfl

theorem le_byteLength_of_peek? {text : Text} {position : Nat} {c : Char}
    (h : peek? text position = some (some c)) : position + c.utf8Size ≤ byteLength text := by
  obtain ⟨rest, hrest, hhead⟩ := Option.map_eq_some_iff.mp h
  obtain ⟨before, rfl, rfl⟩ := exists_of_dropBytes? hrest
  obtain ⟨rest, rfl⟩ := List.head?_eq_some_iff.mp hhead
  simp

/-- The offset behind a run of characters that are taken. -/
def eatWhile? (taken : Char → Bool) (text : Text) (position : Nat) : Option Nat :=
  match _h : peek? text position with
  | none => none
  | some none => some position
  | some (some c) =>
    if taken c then eatWhile? taken text (position + c.utf8Size) else some position
termination_by byteLength text - position
decreasing_by
  have hle := le_byteLength_of_peek? _h
  have hpos := c.utf8Size_pos
  omega

/-- The offset behind a control sequence whose backslash has been read. -/
def controlSequence? (text : Text) (position : Nat) : Option Nat := do
  match ← peek? text position with
  | none => return position
  | some c =>
    if isCommandLetter c then
      let position ← eatWhile? isCommandLetter text position
      if (← peek? text position) = some '*' then return position + 1 else return position
    else return position + c.utf8Size

/-- The offset behind a token whose first character has been read. -/
def tokenEnd? (text : Text) (position : Nat) : Shape → Option Nat
  | .backslash => controlSequence? text position
  | .comment => eatWhile? (fun c => c != '\n' && c != '\r') text position
  | .whitespace => eatWhile? isWhitespace text position
  | .text => eatWhile? isTextChar text position
  | .single _ | .word | .finished => some position

/-- The token at an offset and the offset behind it, if the text does not end there. -/
def nextToken? (text : Text) (start : Nat) : Option (Option (Token × Nat)) := do
  match ← peek? text start with
  | none => return none
  | some c =>
    let position ← tokenEnd? text (start + c.utf8Size) (.start c)
    let written ← slice? text ⟨start, position⟩
    return some (⟨(Shape.start c).kind, written⟩, position)

theorem le_of_eatWhile? {taken : Char → Bool} {text : Text} {position stop : Nat}
    (h : eatWhile? taken text position = some stop) : position ≤ stop := by
  fun_induction eatWhile? taken text position with
  | case1 => cases h
  | case2 => cases h; exact Nat.le_refl _
  | case3 position c _ _ ih => exact Nat.le_trans (Nat.le_add_right _ _) (ih h)
  | case4 => cases h; exact Nat.le_refl _

theorem le_of_controlSequence? {text : Text} {position stop : Nat}
    (h : controlSequence? text position = some stop) : position ≤ stop := by
  obtain ⟨found, -, h⟩ := Option.bind_eq_some_iff.mp h
  cases found with
  | none => exact Nat.le_of_eq (Option.some.inj h)
  | some c =>
    simp only at h
    split at h
    · obtain ⟨behind, hbehind, h⟩ := Option.bind_eq_some_iff.mp h
      obtain ⟨star, -, h⟩ := Option.bind_eq_some_iff.mp h
      have hle := le_of_eatWhile? hbehind
      split at h <;> obtain rfl := Option.some.inj h <;> omega
    · obtain rfl := Option.some.inj h
      exact Nat.le_add_right _ _

theorem le_of_tokenEnd? {text : Text} {position stop : Nat} {s : Shape}
    (h : tokenEnd? text position s = some stop) : position ≤ stop := by
  cases s with
  | backslash => exact le_of_controlSequence? h
  | comment | whitespace | text => exact le_of_eatWhile? h
  | single | word | finished => exact Nat.le_of_eq (Option.some.inj h)

/-- Behind a token the offset is greater. -/
theorem lt_of_nextToken? {text : Text} {start position : Nat} {t : Token}
    (h : nextToken? text start = some (some (t, position))) :
    start < position ∧ start < byteLength text := by
  obtain ⟨found, hfound, h⟩ := Option.bind_eq_some_iff.mp h
  cases found with
  | none => cases h
  | some c =>
    obtain ⟨stop, hstop, h⟩ := Option.bind_eq_some_iff.mp h
    obtain ⟨written, -, h⟩ := Option.bind_eq_some_iff.mp h
    cases h
    have hpos := c.utf8Size_pos
    have hle := le_of_tokenEnd? hstop
    have hlength := le_byteLength_of_peek? hfound
    omega

/-- The tokens from an offset on. -/
def tokensFrom? (text : Text) (start : Nat) : Option (List Token) :=
  match _h : nextToken? text start with
  | none => none
  | some none => some []
  | some (some (t, position)) => (tokensFrom? text position).map (t :: ·)
termination_by byteLength text - start
decreasing_by
  have hlt := lt_of_nextToken? _h
  omega

/-- The tokens of a text. -/
def tokens? (text : Text) : Option (List Token) := tokensFrom? text 0

/-! ### What is read -/

section Reading

variable {run rest : Text} {t : Token}

/-- A run of characters that are taken is read to its end. -/
theorem eatWhile?_append (before : Text) {taken : Char → Bool} (hrun : ∀ c ∈ run, taken c = true)
    (hrest : ∀ c ∈ rest.head?, taken c = false) :
    eatWhile? taken (before ++ (run ++ rest)) (byteLength before) =
      some (byteLength (before ++ run)) := by
  induction run generalizing before with
  | nil =>
    rw [eatWhile?, List.nil_append, List.append_nil]
    split
    · next hpeek => simp [peek?_append] at hpeek
    · rfl
    · next c hpeek =>
      rw [peek?_append] at hpeek
      rw [hrest c (Option.some.inj hpeek), if_neg (by decide)]
  | cons c run ih =>
    have hnext := ih (before ++ [c]) fun d hd => hrun d (List.mem_cons_of_mem _ hd)
    have htake : taken c = true := hrun c List.mem_cons_self
    rw [eatWhile?]
    split
    · next hpeek => simp [peek?_append] at hpeek
    · next hpeek => simp [peek?_append] at hpeek
    · next d hpeek =>
      obtain rfl : c = d := by simpa [peek?_append] using hpeek
      rw [if_pos htake]
      simpa [Nat.add_assoc] using hnext

/-- Letters behind a backslash, and a star if there is one, are read to their end. -/
theorem controlSequence?_letters (before : Text) {letters star : Text} (hne : letters ≠ [])
    (hletters : ∀ c ∈ letters, isCommandLetter c = true)
    (hrest : star = ['*'] ∨ star = [] ∧ ∀ c ∈ rest.head?, isCommandLetter c = false ∧ c ≠ '*') :
    controlSequence? (before ++ (letters ++ (star ++ rest))) (byteLength before) =
      some (byteLength (before ++ (letters ++ star))) := by
  have hbehind : ∀ c ∈ (star ++ rest).head?, isCommandLetter c = false := by
    rcases hrest with rfl | ⟨rfl, hrest⟩
    · intro c hc
      obtain rfl : '*' = c := Option.some.inj hc
      decide
    · exact fun c hc => (hrest c hc).1
  have heat := eatWhile?_append before hletters hbehind
  have hpeek : peek? (before ++ (letters ++ (star ++ rest))) (byteLength (before ++ letters)) =
      some (star ++ rest).head? := by
    rw [← List.append_assoc]
    exact peek?_append _ _
  obtain ⟨c, tail, rfl⟩ := List.exists_cons_of_ne_nil hne
  rw [controlSequence?, peek?_append]
  simp only [List.cons_append, List.head?_cons, Option.bind_eq_bind, Option.bind_some]
  rw [if_pos (hletters c List.mem_cons_self)]
  simp only [List.cons_append] at heat hpeek
  rw [heat, Option.bind_some, hpeek, Option.bind_some]
  rcases hrest with rfl | ⟨rfl, hrest⟩
  · have hstar : ('*').utf8Size = 1 := rfl
    simp [hstar]
    omega
  · have hstar : rest.head? ≠ some '*' := fun hhead => (hrest '*' hhead).2 rfl
    rw [List.nil_append, if_neg hstar, List.append_nil]
    rfl

/-- At the offset of a token the token is read, and the offset behind it is reached. -/
theorem tokenEnd?_lexeme (before : Text) {c : Char} {text : Text} (h : Lexeme rest.head? t)
    (htext : t.text = c :: text) :
    (Shape.start c).kind = t.kind ∧
      tokenEnd? (before ++ (text ++ rest)) (byteLength before) (.start c) =
        some (byteLength (before ++ text)) := by
  cases h with
  | single hc =>
    obtain ⟨rfl, rfl⟩ := List.cons.inj htext
    rw [hc]
    exact ⟨rfl, by simp [tokenEnd?]⟩
  | comment hbody hnext =>
    obtain ⟨rfl, rfl⟩ := List.cons.inj htext
    refine ⟨rfl, eatWhile?_append before (fun c hc => by simp [hbody c hc]) fun c hc => ?_⟩
    rcases hnext c hc with rfl | rfl <;> rfl
  | whitespace hne hrun hnext =>
    obtain rfl : _ = c :: text := htext
    rw [Shape.start_of_isWhitespace (hrun c List.mem_cons_self)]
    exact ⟨rfl, eatWhile?_append before (fun d hd => hrun d (List.mem_cons_of_mem _ hd)) hnext⟩
  | text hne hrun hnext =>
    obtain rfl : _ = c :: text := htext
    rw [Shape.start_of_isTextChar (hrun c List.mem_cons_self)]
    exact ⟨rfl, eatWhile?_append before (fun d hd => hrun d (List.mem_cons_of_mem _ hd)) hnext⟩
  | word hne hletters hnext =>
    obtain ⟨rfl, rfl⟩ := List.cons.inj htext
    have hread := controlSequence?_letters before hne hletters (.inr ⟨rfl, hnext⟩)
    refine ⟨rfl, ?_⟩
    show controlSequence? _ _ = _
    simpa using hread
  | starred hne hletters =>
    obtain ⟨rfl, rfl⟩ := List.cons.inj htext
    have hread : controlSequence? (before ++ (_ ++ (['*'] ++ rest))) _ = _ :=
      controlSequence?_letters before hne hletters (.inl rfl)
    refine ⟨rfl, ?_⟩
    show controlSequence? _ _ = _
    simpa using hread
  | symbol hc =>
    obtain ⟨rfl, rfl⟩ := List.cons.inj htext
    refine ⟨rfl, ?_⟩
    show controlSequence? _ _ = _
    rw [controlSequence?, peek?_append]
    simp [hc]
  | backslash hnext =>
    obtain ⟨rfl, rfl⟩ := List.cons.inj htext
    refine ⟨rfl, ?_⟩
    show controlSequence? _ _ = _
    rw [controlSequence?, peek?_append, List.nil_append, hnext]
    simp

theorem nextToken?_lexeme (before : Text) (h : Lexeme rest.head? t) :
    nextToken? (before ++ (t.text ++ rest)) (byteLength before) =
      some (some (t, byteLength (before ++ t.text))) := by
  obtain ⟨c, text, htext⟩ := List.exists_cons_of_ne_nil h.text_ne_nil
  obtain ⟨hkind, hend⟩ := tokenEnd?_lexeme (before ++ [c]) h htext
  have hslice := slice?_append before t.text rest
  have hpeek : peek? (before ++ (t.text ++ rest)) (byteLength before) = some (some c) := by
    simp [peek?_append, htext]
  have hsplit : before ++ (t.text ++ rest) = before ++ [c] ++ (text ++ rest) := by simp [htext]
  have hstop : byteLength before + c.utf8Size = byteLength (before ++ [c]) := by simp
  rw [← hsplit] at hend
  have hstop' : byteLength (before ++ [c] ++ text) = byteLength (before ++ t.text) := by
    simp [htext]
  rw [nextToken?, hpeek]
  simp only [Option.bind_eq_bind, Option.bind_some]
  rw [hstop, hend, Option.bind_some, hstop']
  rw [List.append_assoc, Span.ofLength, ← byteLength_append] at hslice
  rw [hslice, Option.bind_some, hkind]
  rfl

theorem nextToken?_end (text : Text) : nextToken? text (byteLength text) = some none := by
  have hpeek := peek?_append text []
  rw [List.append_nil] at hpeek
  rw [nextToken?, hpeek]
  rfl

theorem tokensFrom?_lexed (before : Text) {tokens : List Token} (h : Lexed tokens) :
    tokensFrom? (before ++ tokensText tokens) (byteLength before) = some tokens := by
  induction tokens generalizing before with
  | nil =>
    have hend := nextToken?_end (before ++ tokensText [])
    rw [tokensFrom?]
    simp only [tokensText, List.flatMap_nil, List.append_nil] at hend ⊢
    split <;> simp_all
  | cons t tokens ih =>
    have hnext := nextToken?_lexeme before h.1
    have hrest := ih (before ++ t.text) h.2
    rw [tokensFrom?, tokensText_cons]
    rw [List.append_assoc] at hrest
    split <;> simp_all

end Reading

/-- No look at a text and no slice of it falls inside a character, and the tokens are read. -/
theorem tokens?_eq (text : Text) : tokens? text = some (tokenize text) := by
  have h := tokensFrom?_lexed [] (lexed_tokenize text)
  rwa [tokensText_tokenize] at h

end Machine

end TexLint
